import Lionagi.LionCore.Ghost
import Lionagi.LionCore.Mediation

/-!
# Host calls that are built from the kernel's record

The witness of such a call is validated against the state that it executes in. The authorization of a
release demands a valid capability on the address, the release itself that there is none. The
authorization of an allocation demands that address 0, which stands for the target, is live.
-/

namespace Lionagi.LionCore

/-- The witness is built from the capability that the kernel records under `capId`. -/
def Step.hostCallAtomic (state : State) (hc : HostCall) (capId : CapId) (ctx : PolicyContext)
    (result : HostResult) : Except StepError Step :=
  match state.getCap capId with
  | none => .error (.capabilityNotFound capId)
  | some cap =>
    match hc.requiredAction with
    | .error e => .error e
    | .ok action =>
      if cap.holder ≠ hc.caller then
        .error (.authorizationFailed (.holderMismatch hc.caller cap.holder))
      else
        match Authorized.validateAtomic state cap action ctx with
        | .ok auth => .ok (.hostCall hc auth result)
        | .error e => .error (.authorizationFailed e)

/-- The call is built and executed in the same state. -/
def executeAtomic (state : State) (hc : HostCall) (capId : CapId) (ctx : PolicyContext)
    (result : HostResult) : Except StepError State :=
  match Step.hostCallAtomic state hc capId ctx result with
  | .ok step => step.execute state
  | .error e => .error e

section Building

variable {state : State} {hc : HostCall} {capId : CapId} {cap : Capability} {action : Action}
  {ctx : PolicyContext} {result : HostResult}

theorem action_eq_ok {target : ResourceId} {right : Right} {kind : String}
    (h : hc.action target right kind = .ok action) :
    action = { subject := hc.caller, target, rights := Rights.singleton right, kind } := by
  unfold HostCall.action Action.new at h
  by_cases hkind : kind = ""
  · rw [if_pos hkind] at h
    cases h
  · rw [if_neg hkind] at h
    cases h
    rfl

theorem requiredAction_subject (h : hc.requiredAction = .ok action) : action.subject = hc.caller := by
  unfold HostCall.requiredAction at h
  split at h
  · split at h
    · rw [action_eq_ok h]
    · cases h
  · rw [action_eq_ok h]
  · split at h
    · rw [action_eq_ok h]
    · cases h
  · split at h
    · rw [action_eq_ok h]
    · cases h
  · rw [action_eq_ok h]
  · rw [action_eq_ok h]
  · cases h

variable {auth : Authorized}

/-- A witness that was built for the required action of the call passes when it is used. -/
theorem checkHostCall_eq_preconditions (haction : hc.requiredAction = .ok auth.action)
    (hpasses : Passes state auth.cap auth.action auth.ctx) :
    checkHostCall state hc auth = hc.checkPreconditions state := by
  have hsubject := requiredAction_subject haction
  have hvalidate : auth.validate state = .ok () := checkAll_eq_ok_iff.2 hpasses
  unfold checkHostCall
  rw [if_neg (not_not.2 hsubject), haction, hvalidate]
  simp only [bind, Except.bind, ne_eq, not_true_eq_false, if_false]

theorem validateAtomic_eq_ok (h : Authorized.validateAtomic state cap action ctx = .ok auth) :
    auth.cap = cap ∧ auth.action = action ∧ auth.ctx = ctx := by
  unfold Authorized.validateAtomic at h
  split at h
  · cases h
    exact ⟨rfl, rfl, rfl⟩
  · cases h

/-- Building and executing succeeds when the six checks pass, the regions are in bounds and the function
itself succeeds. -/
theorem executeAtomic_isOk_iff (hcap : state.getCap capId = some cap) (hholder : cap.holder = hc.caller)
    (haction : hc.requiredAction = .ok action) :
    (∃ state', executeAtomic state hc capId ctx result = .ok state') ↔
      Passes state cap action ctx ∧ hc.checkPreconditions state = .ok () ∧
        ∃ state', hc.function.execute state hc result = .ok state' := by
  unfold executeAtomic Step.hostCallAtomic
  rw [hcap, haction]
  simp only [hholder, ne_eq, not_true_eq_false, if_false]
  cases hvalidate : Authorized.validateAtomic state cap action ctx with
  | error e =>
    constructor
    · rintro ⟨state', h⟩
      cases h
    · rintro ⟨hpasses, -⟩
      obtain ⟨auth, hauth⟩ := validateAtomic_isOk_iff.2 hpasses
      rw [hvalidate] at hauth
      cases hauth
  | ok auth =>
    have hpasses : Passes state cap action ctx := validateAtomic_isOk_iff.1 ⟨auth, hvalidate⟩
    obtain ⟨rfl, rfl, rfl⟩ := validateAtomic_eq_ok hvalidate
    simp only [Step.execute, executeHostCall, check_bind_eq_ok_iff,
      checkHostCall_eq_preconditions haction hpasses, hpasses, true_and, exists_and_left]

end Building

/-! ## Legitimate calls -/

/-- The kernel records a valid capability of the plugin, which the plugin holds, on this target and with
this right, and the policy permits the plugin to use it. -/
structure Entitled (state : State) (pid : PluginId) (capId : CapId) (cap : Capability)
    (ctx : PolicyContext) (rid : ResourceId) (right : Right) : Prop where
  recorded : state.getCap capId = some cap
  valid : cap.isValid = true
  holder : cap.holder = pid
  target : cap.target = rid
  rights : cap.rights.contains right = true
  held : state.pluginHolds pid capId = true
  permitted : ∀ action : Action, action.subject = pid → action.target = rid →
    action.rights = Rights.singleton right → (state.kernel.policy.eval action ctx).isPermit = true

/-- The release of a live address that no other valid capability targets. -/
structure LegitimateFree (state : State) (hc : HostCall) (capId : CapId) (cap : Capability)
    (ctx : PolicyContext) (addr : MemAddr) : Prop
    extends Entitled state hc.caller capId cap ctx addr .delete where
  function : hc.function = .memFree
  args : hc.args.head? = some addr
  live : state.ghost.isLive addr = true
  sole : ∀ c other, state.getCap c = some other → other.isValid = true → other.target = addr → c = capId

/-- An allocation within the quota. -/
structure LegitimateAlloc (state : State) (hc : HostCall) (capId : CapId) (cap : Capability)
    (ctx : PolicyContext) : Prop extends Entitled state hc.caller capId cap ctx 0 .create where
  function : hc.function = .kernelAlloc
  quota : ∃ plugin, state.getPlugin hc.caller = some plugin ∧
    plugin.canAllocMemory (hc.args.head?.getD 0) = true

section Legitimate

variable {state : State} {hc : HostCall} {capId : CapId} {cap : Capability} {ctx : PolicyContext}
  {result : HostResult}

theorem isSubsetOf_singleton {right : Right} {rights : Rights} (h : rights.contains right = true) :
    (Rights.singleton right).isSubsetOf rights = true := by
  rw [Rights.isSubsetOf_iff]
  intro right' hright'
  obtain rfl : right' = right := by
    revert hright'
    cases right <;> cases right' <;> decide
  exact h

/-- Of the six checks of an entitled action those on the parent, on the target and on the levels are
left. -/
theorem Entitled.passes_iff {pid : PluginId} {target : ResourceId} {right : Right} {action : Action}
    (h : Entitled state pid capId cap ctx target right) (hindexed : state.kernel.revocation.Indexed)
    (hsubject : action.subject = pid) (htarget : action.target = target)
    (hrights : action.rights = Rights.singleton right) :
    Passes state cap action ctx ↔
      (∀ p, cap.parent = some p → state.kernel.revocation.isValid p = true) ∧
        state.ghost.isLive (truncate target) = true ∧ bibaWriteOk state action = true := by
  have hid : cap.id = capId := hindexed.id_of_get h.recorded
  constructor
  · intro hpasses
    exact ⟨hpasses.parent, htarget ▸ hpasses.live, hpasses.biba⟩
  · rintro ⟨hparent, hlive, hbiba⟩
    exact
      { holder := h.holder.trans hsubject.symm
        target := h.target.trans htarget.symm
        rights := by
          rw [hrights]
          exact isSubsetOf_singleton h.rights
        held := by
          rw [hsubject, hid]
          exact h.held
        policy := h.permitted action hsubject htarget hrights
        valid := by
          rw [hid]
          exact (RevocationState.isValid_iff capId).2 ⟨cap, h.recorded, h.valid⟩
        parent := hparent
        live := by
          rw [htarget]
          exact hlive
        biba := hbiba }

/-- The capability that authorises a release is a valid one that targets the address. -/
theorem LegitimateFree.not_isOk {addr : MemAddr} (h : LegitimateFree state hc capId cap ctx addr) :
    ¬ ∃ state', executeAtomic state hc capId ctx result = .ok state' := by
  have haction : hc.requiredAction = .ok
      { subject := hc.caller, target := addr, rights := Rights.singleton .delete, kind := "mem_free" } := by
    unfold HostCall.requiredAction
    rw [h.function, h.args]
    rfl
  rw [executeAtomic_isOk_iff h.recorded h.holder haction]
  rintro ⟨-, -, state', hexecute⟩
  rw [h.function] at hexecute
  simp only [HostFunction.execute, HostFunction.executeMemFree, h.args, check_bind_eq_ok_iff] at hexecute
  have hfreeable : Freeable state addr := checkFree_eq_ok_iff.1 hexecute.1
  have hcovered : Covered state
      { subject := hc.caller, target := addr, rights := Rights.singleton .delete, kind := "mem_free" } :=
    ⟨capId, cap, h.held, h.recorded, h.valid, h.target, isSubsetOf_singleton h.rights⟩
  exact hfreeable.not_covered rfl hcovered

theorem LegitimateAlloc.isOk_iff (h : LegitimateAlloc state hc capId cap ctx)
    (hindexed : state.kernel.revocation.Indexed) :
    (∃ state', executeAtomic state hc capId ctx result = .ok state') ↔
      state.ghost.isLive 0 = true ∧
        (∀ p, cap.parent = some p → state.kernel.revocation.isValid p = true) ∧
          hc.checkPreconditions state = .ok () := by
  have haction : hc.requiredAction = .ok
      { subject := hc.caller, target := 0, rights := Rights.singleton .create, kind := "kernel_alloc" } := by
    unfold HostCall.requiredAction
    rw [h.function]
    rfl
  have hexecute : ∃ state', hc.function.execute state hc result = .ok state' := by
    obtain ⟨plugin, hplugin, hquota⟩ := h.quota
    rw [h.function]
    simp only [HostFunction.execute, HostFunction.executeKernelAlloc, check_bind_eq_ok_iff]
    refine ⟨_, ?_, rfl⟩
    unfold HostFunction.checkKernelAlloc
    rw [hplugin]
    simp only [hquota, Bool.not_true, Bool.false_eq_true, if_false]
    rfl
  have hbiba : bibaWriteOk state
      { subject := hc.caller, target := 0, rights := Rights.singleton .create, kind := "kernel_alloc" } =
        true := by
    have hcreate : (Rights.singleton .create).contains .write = false := by decide
    simp [bibaWriteOk, hcreate]
  rw [executeAtomic_isOk_iff h.recorded h.holder haction, h.passes_iff hindexed rfl rfl rfl]
  simp only [hexecute, hbiba, and_true, truncate, Nat.zero_mod]
  tauto

end Legitimate

/-- No legitimate release succeeds. A legitimate allocation succeeds if and only if address 0 is live, the
parent of the capability is valid and the regions of the call are in bounds. -/
theorem executeAtomic_legitimate_iff (state : State) (hindexed : state.kernel.revocation.Indexed)
    (hc : HostCall) (capId : CapId) (cap : Capability) (ctx : PolicyContext) (result : HostResult) :
    (∀ addr, LegitimateFree state hc capId cap ctx addr →
      ¬ ∃ state', executeAtomic state hc capId ctx result = .ok state') ∧
    (LegitimateAlloc state hc capId cap ctx →
      ((∃ state', executeAtomic state hc capId ctx result = .ok state') ↔
        state.ghost.isLive 0 = true ∧
          (∀ p, cap.parent = some p → state.kernel.revocation.isValid p = true) ∧
            hc.checkPreconditions state = .ok ())) :=
  ⟨fun _ hfree ↦ hfree.not_isOk, fun halloc ↦ halloc.isOk_iff hindexed⟩

/-! ## A plugin that may allocate and release -/

section Owner

/-- A capability of plugin 1 with all rights on address 0. -/
def ownerCap : Capability where
  id := 5
  holder := 1
  target := 0
  rights := ⟨allRightsMask, rfl⟩
  parent := none
  epoch := 0
  valid := true
  signature := SealedTag.empty
  holder_ne_zero := Nat.one_ne_zero
  rights_nonempty := by decide

/-- Plugin 1 holds the capability. -/
def owning (ghost : MetaState) : State :=
  { State.empty with
    kernel := { KernelState.initial Key.empty PolicyState.permitAll with
      revocation := { caps := [(5, ownerCap)], epoch := 0, childrenIndex := [] } }
    plugins := [(1, (PluginState.empty .publicLevel 0).grantCapMut 5)]
    ghost }

def callOf (function : HostFunction) : HostCall :=
  { caller := 1, function, args := [0], reads := [], writes := [] }

variable (ghost : MetaState)

theorem owning_entitled (right : Right) (h : ownerCap.rights.contains right = true) :
    Entitled (owning ghost) 1 5 ownerCap ⟨0, none⟩ 0 right where
  recorded := rfl
  valid := rfl
  holder := rfl
  target := rfl
  rights := h
  held := rfl
  permitted := fun _ _ _ _ ↦ rfl

theorem owning_indexed : (owning ghost).kernel.revocation.Indexed := by
  have hsearch : SortedTable.binarySearchByKey Prod.fst ownerCap.id RevocationState.empty.caps = .error 0 :=
    rfl
  exact RevocationState.indexed_empty.inserted hsearch

theorem owning_free :
    LegitimateFree (owning (MetaState.empty.alloc 0 1)) (callOf .memFree) 5 ownerCap ⟨0, none⟩ 0 where
  toEntitled := owning_entitled _ .delete (by decide)
  function := rfl
  args := rfl
  live := rfl
  sole := by
    intro c other hother _ _
    have hmem := (owning_indexed _).get_eq_some_iff.1 hother
    exact congrArg Prod.fst (List.mem_singleton.1 hmem)

theorem owning_alloc :
    LegitimateAlloc (owning ghost) (callOf .kernelAlloc) 5 ownerCap ⟨0, none⟩ where
  toEntitled := owning_entitled ghost .create (by decide)
  function := rfl
  quota := ⟨_, rfl, by decide⟩

/-- After a first allocation another one succeeds, and no release does. -/
theorem executeAtomic_legitimate_iff_owning :
    (¬ ∃ state', executeAtomic (owning (MetaState.empty.alloc 0 1)) (callOf .memFree) 5 ⟨0, none⟩ ⟨[], []⟩ =
      .ok state') ∧
    ∃ state', executeAtomic (owning (MetaState.empty.alloc 0 1)) (callOf .kernelAlloc) 5 ⟨0, none⟩ ⟨[], []⟩ =
      .ok state' := by
  have hindexed := owning_indexed (MetaState.empty.alloc 0 1)
  constructor
  · exact (executeAtomic_legitimate_iff _ hindexed (callOf .memFree) 5 ownerCap ⟨0, none⟩ ⟨[], []⟩).1 0
      owning_free
  · apply ((executeAtomic_legitimate_iff _ hindexed (callOf .kernelAlloc) 5 ownerCap ⟨0, none⟩
      ⟨[], []⟩).2 (owning_alloc _)).2
    refine ⟨rfl, ?_, rfl⟩
    intro p hparent
    cases hparent

/-- The very first allocation fails, and so does the release of what was allocated. -/
theorem not_executeAtomic_legitimate :
    (¬ ∀ (state : State) (hc : HostCall) (capId : CapId) (cap : Capability) (ctx : PolicyContext)
      (result : HostResult) (addr : MemAddr), state.kernel.revocation.Indexed →
        LegitimateFree state hc capId cap ctx addr →
          ∃ state', executeAtomic state hc capId ctx result = .ok state') ∧
    ¬ ∀ (state : State) (hc : HostCall) (capId : CapId) (cap : Capability) (ctx : PolicyContext)
      (result : HostResult), state.kernel.revocation.Indexed →
        LegitimateAlloc state hc capId cap ctx →
          ∃ state', executeAtomic state hc capId ctx result = .ok state' := by
  constructor
  · intro h
    exact owning_free.not_isOk (h _ _ _ _ ⟨0, none⟩ ⟨[], []⟩ 0 (owning_indexed _) owning_free)
  · intro h
    have hok := h (owning MetaState.empty) _ _ _ ⟨0, none⟩ ⟨[], []⟩ (owning_indexed _) (owning_alloc _)
    have hlive := ((owning_alloc MetaState.empty).isOk_iff (owning_indexed _)).1 hok
    exact absurd hlive.1 (by decide)

end Owner

end Lionagi.LionCore
