import Lionagi.LionCore.Step

/-!
# The two execution paths of a step

The pure and the mutating path of a step agree, except where the source updates the state by different
means: the two ways to free an address never agree once their checks have passed, and the two
transitive revocations agree when no valid descendant is further away than its identifier says.
-/

namespace Lionagi.LionCore

open SortedTable ParentForest

/-- The mutating path succeeds exactly when the pure path does, with the same state, and leaves the
state alone otherwise. -/
def AgreesWith (state : State) (result : Except StepError State)
    (mutated : Except StepError Unit × State) : Prop :=
  match result with
  | .ok state' => mutated = (.ok (), state')
  | .error _ => ∃ e, mutated = (.error e, state)

def Step.Agrees (step : Step) (state : State) : Prop :=
  AgreesWith state (step.execute state) (step.executeMut state)

section Paths

variable (state : State)

theorem agreesWith_pluginInternal (pid : PluginId) (pi : PluginInternal) :
    AgreesWith state (executePluginInternal state pid pi) (executePluginInternalMut state pid pi) := by
  unfold executePluginInternal executePluginInternalMut
  cases state.getPlugin pid with
  | none => exact ⟨_, rfl⟩
  | some plugin =>
    cases pi.checkPreconditions state pid with
    | error e => exact ⟨_, rfl⟩
    | ok u =>
      dsimp only
      cases pi.findOobByte plugin with
      | some err => exact ⟨_, rfl⟩
      | none => cases pi.consumeMailbox <;> rfl

theorem agreesWith_kernelOp (op : KernelOp) :
    AgreesWith state (op.execute state) (op.executeMut state) := by
  cases op with
  | routeOne dst =>
    simp only [KernelOp.execute, KernelOp.executeMut]
    cases KernelOp.checkRouteOne state dst with
    | error e => exact ⟨e, rfl⟩
    | ok u => rfl
  | workflowTick wid =>
    simp only [KernelOp.execute, KernelOp.executeMut]
    cases KernelOp.checkWorkflowTick state wid with
    | error e => exact ⟨e, rfl⟩
    | ok u => rfl
  | timeTick =>
    simp only [KernelOp.execute, KernelOp.executeMut, State.tick, KernelState.tickChecked]
    cases checkedAdd state.kernel.now 1 with
    | none => exact ⟨_, rfl⟩
    | some now => rfl
  | unblockSend dst =>
    simp only [KernelOp.execute, KernelOp.executeMut]
    cases KernelOp.checkUnblockSend state dst with
    | error e => exact ⟨e, rfl⟩
    | ok u => rfl
  | threadSwitch => exact ⟨_, rfl⟩

end Paths

/-! ## Freeing an address -/

section Free

variable {state : State} {addr : MemAddr}

/-- An address that passes the checks of a free. -/
def Freeable (state : State) (addr : MemAddr) : Prop :=
  state.ghost.isFreed addr = false ∧ state.kernel.revocation.anyValidTargeting addr = false

theorem checkFree_eq_ok_iff : HostFunction.checkFree state addr = .ok () ↔ Freeable state addr := by
  unfold HostFunction.checkFree Freeable RevocationState.anyValidTargeting
  rw [List.any_eq_false]
  cases state.ghost.isFreed addr with
  | true => simp
  | false =>
    cases hfind : state.kernel.revocation.caps.find?
        fun entry ↦ entry.2.isValid && entry.2.target == addr with
    | none => simpa using List.find?_eq_none.1 hfind
    | some entry =>
      have hentry := List.find?_some hfind
      simp only [Bool.false_eq_true, if_false, reduceCtorEq, true_and, false_iff]
      exact fun h ↦ h entry (List.mem_of_find?_eq_some hfind) hentry

theorem Freeable.applyFree (h : Freeable state addr) :
    state.applyFree addr = .ok { state with ghost := state.ghost.free addr } := by
  simp [State.applyFree, h.2]

theorem setStatus_eq_iff (ghost : MetaState) (addr : MemAddr) (status : ResourceStatus) :
    MetaState.setStatus ghost.resources addr status = ghost.resources ↔
      ghost.getStatus addr = some status := by
  unfold MetaState.setStatus MetaState.getStatus lookup
  cases hsearch : binarySearchByKey Prod.fst addr ghost.resources with
  | error pos =>
    refine iff_of_false ?_ (by simp)
    intro heq
    have hlength := congrArg List.length heq
    simp only [List.length_insertIdx_of_le_length (search_error_le hsearch)] at hlength
    omega
  | ok idx =>
    obtain ⟨entry, hentry, -⟩ := getElem?_of_search_ok hsearch
    simp only [hentry, Option.map_some, Option.some.injEq]
    constructor
    · intro heq
      have hidx := congrArg (·[idx]?) heq
      simp only [List.getElem?_modify_eq, hentry, Option.map_eq_map, Option.map_some,
        Option.some.injEq] at hidx
      exact (congrArg Prod.snd hidx).symm
    · intro hstatus
      apply List.ext_getElem?
      intro j
      rw [List.getElem?_modify]
      by_cases hj : idx = j
      · subst hj
        simp [hentry, ← hstatus]
      · simp [hj]

/-- The mutating free fails on an address that is not allocated, and updates the status of one that
is; the pure free does neither. -/
theorem Freeable.applyFreeMut_ne (h : Freeable state addr) :
    state.applyFreeMut addr ≠ (.ok (), { state with ghost := state.ghost.free addr }) := by
  intro heq
  unfold State.applyFreeMut MetaState.freeMut at heq
  simp only [h.1, h.2, Bool.false_eq_true, if_false] at heq
  cases hstatus : state.ghost.getStatus addr with
  | none => simp [hstatus] at heq
  | some status =>
    cases status with
    | unallocated => simp [hstatus] at heq
    | freed => simp [hstatus] at heq
    | allocated owner =>
      simp only [hstatus, MetaState.free, Prod.mk.injEq, true_and] at heq
      have hresources := congrArg (fun s : State ↦ s.ghost.resources) heq
      have hfreed := (setStatus_eq_iff _ _ _).1 hresources
      rw [hstatus] at hfreed
      cases hfreed

theorem Freeable.not_agreesWith (h : Freeable state addr) {mutated : Except StepError Unit × State}
    (hok : ∀ state', mutated = (.ok (), state') → state.applyFreeMut addr = (.ok (), state')) :
    ¬ AgreesWith state (.ok { state with ghost := state.ghost.free addr }) mutated :=
  fun hagrees ↦ h.applyFreeMut_ne (hok _ hagrees)

theorem agreesWith_memFree_iff (state : State) (addr : MemAddr) :
    AgreesWith state (executeMemFree state addr) (executeMemFreeMut state addr) ↔
      ¬ Freeable state addr := by
  rw [← checkFree_eq_ok_iff]
  unfold executeMemFree executeMemFreeMut
  cases hcheck : HostFunction.checkFree state addr with
  | error e => exact iff_of_true ⟨e, rfl⟩ (by simp)
  | ok u =>
    have hfree := checkFree_eq_ok_iff.1 hcheck
    refine iff_of_false ?_ (by simp)
    rw [hfree.applyFree]
    apply hfree.not_agreesWith
    intro state' hmutated
    cases hmut : state.applyFreeMut addr with
    | mk result state'' =>
      rw [hmut] at hmutated
      cases result with
      | error e => cases hmutated
      | ok u' =>
        cases hmutated
        rfl

theorem agreesWith_hostMemFree_iff (state : State) (hc : HostCall) :
    AgreesWith state (HostFunction.executeMemFree state hc) (HostFunction.executeMemFreeMut state hc) ↔
      ∀ addr, hc.args.head? = some addr → ¬ Freeable state addr := by
  unfold HostFunction.executeMemFree HostFunction.executeMemFreeMut
  cases hargs : hc.args.head? with
  | none => exact iff_of_true ⟨_, rfl⟩ (by simp)
  | some addr =>
    simp only [Option.some.injEq, forall_eq', ← checkFree_eq_ok_iff]
    cases hcheck : HostFunction.checkFree state addr with
    | error e => exact iff_of_true ⟨e, rfl⟩ (by simp)
    | ok u =>
      have hfree := checkFree_eq_ok_iff.1 hcheck
      refine iff_of_false ?_ (by simp)
      rw [hfree.applyFree]
      apply hfree.not_agreesWith
      intro state' hmutated
      cases hmut : state.applyFreeMut addr with
      | mk result state'' =>
        rw [hmut] at hmutated
        cases result with
        | error e => cases hmutated
        | ok u' =>
          cases hmutated
          rfl

end Free

/-! ## Revoking a capability -/

section Revoke

variable {rs : RevocationState} {state : State} {c : CapId}

/-- Every valid capability whose parent chain reaches `c` does so in at most as many links as its own
identifier, which is the fuel of the slow path. -/
def WithinFuel (rs : RevocationState) (c : CapId) : Prop :=
  ∀ k cap, rs.get k = some cap → cap.isValid = true → rs.Descends k c →
    ∃ n ≤ k, climb rs.parentOf n k = some c

theorem revokeEntry_eq_self_iff (entry : CapId × Capability) :
    RevocationState.revokeEntry entry = entry ↔ entry.2.isValid = false := by
  obtain ⟨k, cap⟩ := entry
  constructor
  · intro h
    rw [← h]
    rfl
  · intro hvalid
    obtain ⟨id, holder, target, rights, parent, epoch, valid, signature, hholder, hrights⟩ := cap
    cases hvalid
    rfl

theorem revokeWhere_eq_iff (rs : RevocationState) (P Q : CapId → Bool) :
    rs.revokeWhere P = rs.revokeWhere Q ↔
      ∀ entry ∈ rs.caps, entry.2.isValid = true → P entry.1 = Q entry.1 := by
  simp only [RevocationState.revokeWhere, RevocationState.mk.injEq, and_true, List.map_inj_left]
  apply forall₂_congr
  intro entry _
  have hself := revokeEntry_eq_self_iff entry
  cases hvalid : entry.2.isValid with
  | false =>
    rw [hself.2 hvalid]
    simp
  | true =>
    have hne : RevocationState.revokeEntry entry ≠ entry := fun h ↦ by simp [hself.1 h] at hvalid
    cases hP : P entry.1 <;> cases hQ : Q entry.1 <;> simp [hne, hne.symm]

theorem revokeTransitive_eq_fast_iff (h : rs.Indexed) (c : CapId) :
    rs.revokeTransitiveFast c = rs.revokeTransitive c ↔ WithinFuel rs c := by
  rw [RevocationState.revokeTransitiveFast_eq, RevocationState.revokeTransitive_eq, revokeWhere_eq_iff]
  constructor
  · intro hall k cap hget hvalid hdescends
    have heq := hall (k, cap) (h.get_eq_some_iff.1 hget) hvalid
    rw [decide_eq_true (h.mem_collectDescendants.2 hdescends)] at heq
    exact RevocationState.inRevokeSet_iff.1 heq.symm
  · intro hfuel entry hentry hvalid
    rw [Bool.eq_iff_iff, decide_eq_true_eq, h.mem_collectDescendants]
    constructor
    · intro hdescends
      exact RevocationState.inRevokeSet_iff.2
        (hfuel entry.1 entry.2 (h.get_eq_some_iff.2 hentry) hvalid hdescends)
    · exact RevocationState.descends_of_inRevokeSet

theorem checkRevoke_eq_ok_iff :
    HostFunction.checkRevoke state c = .ok () ↔ state.kernel.revocation.contains c = true := by
  unfold HostFunction.checkRevoke
  rw [RevocationState.contains_iff]
  cases state.kernel.revocation.get c <;> simp

theorem applyCapRevokeMut_eq (h : state.kernel.revocation.Indexed)
    (hcontains : state.kernel.revocation.contains c = true) :
    state.applyCapRevokeMut c =
      (.ok (), { state with
        kernel := { state.kernel with revocation := state.kernel.revocation.revokeTransitiveFast c } }) := by
  unfold State.applyCapRevokeMut
  rw [h.revokeTransitiveFastMut_eq, if_pos hcontains]

theorem applyCapRevokeMut_eq_iff (h : state.kernel.revocation.Indexed)
    (hcontains : state.kernel.revocation.contains c = true) :
    state.applyCapRevokeMut c = (.ok (), state.applyCapRevoke c) ↔
      WithinFuel state.kernel.revocation c := by
  rw [applyCapRevokeMut_eq h hcontains, ← revokeTransitive_eq_fast_iff h]
  constructor
  · intro heq
    exact congrArg (fun p : Except KernelError Unit × State ↦ p.2.kernel.revocation) heq
  · intro heq
    rw [heq, State.applyCapRevoke]

theorem agreesWith_capRevoke_iff (h : state.kernel.revocation.Indexed) (c : CapId) :
    AgreesWith state (executeCapRevoke state c) (executeCapRevokeMut state c) ↔
      (state.kernel.revocation.contains c = true → WithinFuel state.kernel.revocation c) := by
  rw [← checkRevoke_eq_ok_iff]
  unfold executeCapRevoke executeCapRevokeMut
  cases hcheck : HostFunction.checkRevoke state c with
  | error e => exact iff_of_true ⟨e, rfl⟩ (by simp)
  | ok u =>
    have hcontains := checkRevoke_eq_ok_iff.1 hcheck
    have hiff := applyCapRevokeMut_eq_iff h hcontains
    rw [applyCapRevokeMut_eq h hcontains] at hiff ⊢
    simp only [forall_const, ← hiff, Prod.mk.injEq, true_and]
    constructor
    · intro hagrees
      exact congrArg Prod.snd hagrees
    · intro heq
      exact congrArg (Prod.mk (Except.ok ())) heq

theorem agreesWith_hostCapRevoke_iff (h : state.kernel.revocation.Indexed) (hc : HostCall) :
    AgreesWith state (HostFunction.executeCapRevoke state hc)
        (HostFunction.executeCapRevokeMut state hc) ↔
      ∀ c, hc.args.head? = some c → state.kernel.revocation.contains c = true →
        WithinFuel state.kernel.revocation c := by
  unfold HostFunction.executeCapRevoke HostFunction.executeCapRevokeMut
  cases hargs : hc.args.head? with
  | none => exact iff_of_true ⟨_, rfl⟩ (by simp)
  | some c =>
    simp only [Option.some.injEq, forall_eq']
    exact agreesWith_capRevoke_iff h c

end Revoke

/-! ## Host calls -/

section HostCalls

variable {state : State}

/-- The functions that neither free nor revoke. -/
theorem agreesWith_function (function : HostFunction) (state : State) (hc : HostCall)
    (result : HostResult) (hfree : function ≠ .memFree) (hrevoke : function ≠ .capRevoke) :
    AgreesWith state (function.execute state hc result) (function.executeMut state hc result) := by
  cases function with
  | capCall =>
    simp only [HostFunction.execute, HostFunction.executeMut, HostFunction.executeCapCall,
      HostFunction.executeCapCallMut]
    cases HostFunction.checkCapCall state hc with
    | error e => exact ⟨e, rfl⟩
    | ok u => rfl
  | capSend =>
    simp only [HostFunction.execute, HostFunction.executeMut, HostFunction.executeCapSend,
      HostFunction.executeCapSendMut]
    cases HostFunction.checkCapSend state hc result with
    | error e => exact ⟨e, rfl⟩
    | ok u => rfl
  | kernelAlloc =>
    simp only [HostFunction.execute, HostFunction.executeMut, HostFunction.executeKernelAlloc,
      HostFunction.executeKernelAllocMut]
    cases HostFunction.checkKernelAlloc state hc (hc.args.head?.getD 0) with
    | error e => exact ⟨e, rfl⟩
    | ok u => rfl
  | declassify =>
    simp only [HostFunction.execute, HostFunction.executeMut, HostFunction.executeDeclassify,
      HostFunction.executeDeclassifyMut]
    cases HostFunction.decodeLevel (hc.args.head?.getD 0) with
    | error e => exact ⟨e, rfl⟩
    | ok newLevel =>
      simp only [bind, Except.bind]
      cases HostFunction.checkDeclassify state hc newLevel with
      | error e => exact ⟨e, rfl⟩
      | ok u => rfl
  | memFree => exact absurd rfl hfree
  | capRevoke => exact absurd rfl hrevoke
  | _ => exact ⟨threadOperations, rfl⟩

theorem agreesWith_hostCall_iff (h : state.kernel.revocation.Indexed) (hc : HostCall) (auth : Authorized)
    (result : HostResult) :
    AgreesWith state (executeHostCall state hc auth result) (executeHostCallMut state hc auth result) ↔
      (checkHostCall state hc auth = .ok () →
        (hc.function = .memFree → ∀ addr, hc.args.head? = some addr → ¬ Freeable state addr) ∧
        (hc.function = .capRevoke → ∀ c, hc.args.head? = some c →
          state.kernel.revocation.contains c = true → WithinFuel state.kernel.revocation c)) := by
  unfold executeHostCall executeHostCallMut
  cases checkHostCall state hc auth with
  | error e => exact iff_of_true ⟨e, rfl⟩ (by simp)
  | ok u =>
    change AgreesWith state (hc.function.execute state hc result)
      (hc.function.executeMut state hc result) ↔ _
    simp only [forall_const]
    by_cases hfree : hc.function = .memFree
    · rw [hfree]
      simp only [reduceCtorEq, false_implies, and_true, forall_const]
      exact agreesWith_hostMemFree_iff state hc
    · by_cases hrevoke : hc.function = .capRevoke
      · rw [hrevoke]
        simp only [reduceCtorEq, false_implies, true_and, forall_const]
        exact agreesWith_hostCapRevoke_iff h hc
      · simp only [hfree, hrevoke, false_implies, and_self, iff_true]
        exact agreesWith_function hc.function state hc result hfree hrevoke

end HostCalls

/-! ## Reachable states -/

/-- The states that insertions, delegations and previous steps lead to from the empty state, together
with the public operations of the kernel and with a change of its policy. -/
inductive Reachable : State → Prop
  | empty : Reachable State.empty
  | policy {s : State} (h : Reachable s) (policy : PolicyState) :
      Reachable { s with kernel := { s.kernel with policy } }
  | insertPlugin {s : State} (h : Reachable s) (pid : PluginId) (ps : PluginState) :
      Reachable (s.insertPlugin pid ps).2
  | insertActor {s : State} (h : Reachable s) (aid : ActorId) (ar : ActorRuntime) :
      Reachable (s.insertActor aid ar).2
  | insertResource {s : State} (h : Reachable s) (rid : ResourceId) (ri : ResourceInfo) :
      Reachable (s.insertResource rid ri).2
  | insertWorkflow {s : State} (h : Reachable s) (wid : WorkflowId) (wi : WorkflowInstance) :
      Reachable (s.insertWorkflow wid wi).2
  | delegate {s s' : State} (h : Reachable s) (newCap : Capability) (target : PluginId)
      (hdelegate : s.applyCapDelegate newCap target = .ok s') : Reachable s'
  | delegateMut {s : State} (h : Reachable s) (newCap : Capability) (target : PluginId) :
      Reachable (s.applyCapDelegateMut newCap target).2
  | delegateCap {s : State} (h : Reachable s) (sealPayload : Key → CapPayload → SealedTag)
      (parentId : CapId) (target : PluginId) (requestedRights : Rights) :
      Reachable (State.delegateCap sealPayload s parentId target requestedRights).2
  | revoke {s : State} (h : Reachable s) (c : CapId) : Reachable (s.applyRevoke c)
  | capRevoke {s : State} (h : Reachable s) (c : CapId) : Reachable (s.applyCapRevoke c)
  | capRevokeMut {s : State} (h : Reachable s) (c : CapId) : Reachable (s.applyCapRevokeMut c).2
  | alloc {s : State} (h : Reachable s) (owner : PluginId) (size : Size) :
      Reachable (s.applyAllocMut owner size).2
  | free {s s' : State} (h : Reachable s) (addr : MemAddr) (hfree : s.applyFree addr = .ok s') :
      Reachable s'
  | freeMut {s : State} (h : Reachable s) (addr : MemAddr) : Reachable (s.applyFreeMut addr).2
  | tick {s : State} (h : Reachable s) : Reachable s.tick.2
  | execute {s s' : State} (h : Reachable s) (step : Step) (hexecute : step.execute s = .ok s') :
      Reachable s'
  | executeMut {s : State} (h : Reachable s) (step : Step) : Reachable (step.executeMut s).2

/-! ### What an operation does to the capability table -/

/-- The table is kept, a capability is inserted into it, or some of its capabilities are revoked. -/
inductive TableMove (rs : RevocationState) : RevocationState → Prop
  | kept : TableMove rs rs
  | inserted (cap : Capability) (pos : ℕ)
      (hsearch : binarySearchByKey Prod.fst cap.id rs.caps = .error pos) : TableMove rs (rs.inserted cap pos)
  | revoked (P : CapId → Bool) : TableMove rs (rs.revokeWhere P)

theorem TableMove.indexed {rs rs' : RevocationState} (h : TableMove rs rs') (hindexed : rs.Indexed) :
    rs'.Indexed := by
  cases h with
  | kept => exact hindexed
  | inserted cap pos hsearch => exact hindexed.inserted hsearch
  | revoked P => exact hindexed.revokeWhere P

section Moves

variable (s : State)

/-- The capability tables of two states are related by a move. -/
def State.Moves (s s' : State) : Prop := TableMove s.kernel.revocation s'.kernel.revocation

theorem State.Moves.of_kernel_eq {s s' : State} (h : s'.kernel = s.kernel) : s.Moves s' := by
  unfold State.Moves
  rw [h]
  exact TableMove.kept

@[simp] theorem updatePlugin_kernel (pid : PluginId) (f : PluginState → PluginState) :
    (s.updatePlugin pid f).kernel = s.kernel := by
  unfold State.updatePlugin
  split <;> rfl

@[simp] theorem updateActor_kernel (aid : ActorId) (f : ActorRuntime → ActorRuntime) :
    (s.updateActor aid f).kernel = s.kernel := by
  unfold State.updateActor
  split <;> rfl

theorem applyFree_kernel {s' : State} {addr : MemAddr} (h : s.applyFree addr = .ok s') :
    s'.kernel = s.kernel := by
  unfold State.applyFree at h
  split at h
  · cases h
  · cases h
    rfl

@[simp] theorem applyFreeMut_kernel (addr : MemAddr) : (s.applyFreeMut addr).2.kernel = s.kernel := by
  unfold State.applyFreeMut
  split
  · rfl
  · split <;> rfl

theorem moves_applyCapRevoke (c : CapId) : s.Moves (s.applyCapRevoke c) :=
  TableMove.revoked fun k ↦ s.kernel.revocation.inRevokeSet k c

theorem moves_applyRevoke (c : CapId) : s.Moves (s.applyRevoke c) := by
  have h : TableMove s.kernel.revocation _ := TableMove.revoked fun k ↦ decide (k = c)
  simpa only [State.Moves, State.applyRevoke, RevocationState.revoke, RevocationState.revokeWhere,
    decide_eq_true_eq] using h

theorem moves_applyCapRevokeMut (h : s.kernel.revocation.Indexed) (c : CapId) :
    s.Moves (s.applyCapRevokeMut c).2 := by
  unfold State.Moves State.applyCapRevokeMut
  rw [h.revokeTransitiveFastMut_eq]
  by_cases hcontains : s.kernel.revocation.contains c = true
  · rw [if_pos hcontains, RevocationState.revokeTransitiveFast_eq]
    exact TableMove.revoked fun k ↦ decide (k ∈ s.kernel.revocation.collectDescendants c)
  · rw [if_neg hcontains]
    exact TableMove.kept

theorem moves_applyCapDelegateMut (cap : Capability) (target : PluginId) :
    s.Moves (s.applyCapDelegateMut cap target).2 := by
  unfold State.Moves State.applyCapDelegateMut
  simp only [RevocationState.insertMut_eq]
  cases hsearch : binarySearchByKey Prod.fst cap.id s.kernel.revocation.caps with
  | ok pos => exact TableMove.kept
  | error pos =>
    simp only [updatePlugin_kernel]
    exact TableMove.inserted cap pos hsearch

theorem moves_applyCapDelegate {s' : State} {cap : Capability} {target : PluginId}
    (h : s.applyCapDelegate cap target = .ok s') : s.Moves s' := by
  unfold State.applyCapDelegate at h
  simp only [RevocationState.insert_eq] at h
  cases hsearch : binarySearchByKey Prod.fst cap.id s.kernel.revocation.caps with
  | ok pos =>
    rw [hsearch] at h
    cases h
  | error pos =>
    rw [hsearch] at h
    cases h
    unfold State.Moves
    rw [updatePlugin_kernel]
    exact TableMove.inserted cap pos hsearch

theorem moves_delegateCap (sealPayload : Key → CapPayload → SealedTag) (parentId : CapId)
    (target : PluginId) (requestedRights : Rights) :
    s.Moves (State.delegateCap sealPayload s parentId target requestedRights).2 := by
  unfold State.delegateCap KernelState.allocCapId
  cases s.getCap parentId with
  | none => exact TableMove.kept
  | some parent =>
    dsimp only
    by_cases hvalid : (!parent.isValid) = true
    · rw [if_pos hvalid]
      exact TableMove.kept
    rw [if_neg hvalid]
    by_cases hrights : (requestedRights.combine parent.rights).isEmpty = true
    · rw [if_pos hrights]
      exact TableMove.kept
    rw [if_neg hrights]
    by_cases hid : s.kernel.nextCapId + 1 < 2 ^ 128
    · simp only [if_pos hid]
      split
      · exact TableMove.kept
      · next child _ =>
        have hmoves := moves_applyCapDelegateMut
          { s with kernel := { s.kernel with nextCapId := s.kernel.nextCapId + 1 } } child target
        split
        · next hdelegate =>
          rw [hdelegate] at hmoves
          exact hmoves
        · next hdelegate =>
          rw [hdelegate] at hmoves
          exact hmoves
    · simp only [if_neg hid]
      exact TableMove.kept

/-! ### Steps -/

variable {s} {s' : State}

theorem moves_executePluginInternal {pid : PluginId} {pi : PluginInternal}
    (h : executePluginInternal s pid pi = .ok s') : s.Moves s' := by
  unfold executePluginInternal at h
  cases hplugin : s.getPlugin pid with
  | none =>
    rw [hplugin] at h
    cases h
  | some plugin =>
    simp only [hplugin, check_bind_eq_ok_iff] at h
    obtain ⟨-, h⟩ := h
    split at h
    · cases h
    · apply State.Moves.of_kernel_eq
      split at h <;> cases h
      · exact updateActor_kernel s pid _
      · rfl

theorem moves_executeMemFree {addr : MemAddr} (h : executeMemFree s addr = .ok s') : s.Moves s' := by
  unfold executeMemFree at h
  rw [check_bind_eq_ok_iff] at h
  obtain ⟨hcheck, h⟩ := h
  rw [(checkFree_eq_ok_iff.1 hcheck).applyFree] at h
  cases h
  exact State.Moves.of_kernel_eq rfl

theorem moves_executeCapRevoke {c : CapId} (h : executeCapRevoke s c = .ok s') : s.Moves s' := by
  unfold executeCapRevoke at h
  rw [check_bind_eq_ok_iff] at h
  cases h.2
  exact moves_applyCapRevoke s c

theorem moves_hostFunction {function : HostFunction} {hc : HostCall} {result : HostResult}
    (h : function.execute s hc result = .ok s') : s.Moves s' := by
  cases function with
  | capCall =>
    simp only [HostFunction.execute, HostFunction.executeCapCall, check_bind_eq_ok_iff] at h
    cases h.2
    exact State.Moves.of_kernel_eq rfl
  | capSend =>
    simp only [HostFunction.execute, HostFunction.executeCapSend, check_bind_eq_ok_iff] at h
    cases h.2
    exact State.Moves.of_kernel_eq rfl
  | kernelAlloc =>
    simp only [HostFunction.execute, HostFunction.executeKernelAlloc, check_bind_eq_ok_iff] at h
    cases h.2
    exact State.Moves.of_kernel_eq (updatePlugin_kernel _ _ _)
  | memFree =>
    simp only [HostFunction.execute, HostFunction.executeMemFree] at h
    cases hargs : hc.args.head? with
    | none =>
      rw [hargs] at h
      cases h
    | some addr =>
      simp only [hargs, check_bind_eq_ok_iff] at h
      obtain ⟨hcheck, h⟩ := h
      rw [(checkFree_eq_ok_iff.1 hcheck).applyFree] at h
      cases h
      exact State.Moves.of_kernel_eq rfl
  | capRevoke =>
    simp only [HostFunction.execute, HostFunction.executeCapRevoke] at h
    cases hargs : hc.args.head? with
    | none =>
      rw [hargs] at h
      cases h
    | some c =>
      simp only [hargs, check_bind_eq_ok_iff] at h
      cases h.2
      exact moves_applyCapRevoke s c
  | declassify =>
    simp only [HostFunction.execute, HostFunction.executeDeclassify] at h
    cases hlevel : HostFunction.decodeLevel (hc.args.head?.getD 0) with
    | error e =>
      rw [hlevel] at h
      cases h
    | ok newLevel =>
      simp only [hlevel, bind, Except.bind] at h
      split at h
      · cases h
      · cases h
        exact State.Moves.of_kernel_eq (updatePlugin_kernel _ _ _)
  | _ => cases h

theorem moves_kernelOp {op : KernelOp} (h : op.execute s = .ok s') : s.Moves s' := by
  cases op with
  | routeOne dst =>
    simp only [KernelOp.execute, check_bind_eq_ok_iff] at h
    cases h.2
    exact State.Moves.of_kernel_eq (updateActor_kernel s dst _)
  | workflowTick wid =>
    simp only [KernelOp.execute, check_bind_eq_ok_iff] at h
    cases h.2
    exact State.Moves.of_kernel_eq rfl
  | timeTick =>
    simp only [KernelOp.execute, State.tick, KernelState.tickChecked] at h
    cases hnow : checkedAdd s.kernel.now 1 with
    | none =>
      rw [hnow] at h
      cases h
    | some now =>
      rw [hnow] at h
      cases h
      exact TableMove.kept
  | unblockSend dst =>
    simp only [KernelOp.execute, check_bind_eq_ok_iff] at h
    cases h.2
    exact State.Moves.of_kernel_eq (updateActor_kernel s dst _)
  | threadSwitch => cases h

theorem moves_execute {step : Step} (h : step.execute s = .ok s') : s.Moves s' := by
  cases step with
  | pluginInternal pid pi => exact moves_executePluginInternal h
  | hostCall hc auth result =>
    simp only [Step.execute, executeHostCall, check_bind_eq_ok_iff] at h
    exact moves_hostFunction h.2
  | kernelInternal op => exact moves_kernelOp h
  | memFree caller addr => exact moves_executeMemFree h
  | capRevoke caller c => exact moves_executeCapRevoke h

/-- Where the paths agree, the mutating one moves the table as the pure one does, or not at all. -/
theorem AgreesWith.moves {result : Except StepError State} {mutated : Except StepError Unit × State}
    (h : AgreesWith s result mutated) (hresult : ∀ s', result = .ok s' → s.Moves s') :
    s.Moves mutated.2 := by
  cases result with
  | error e =>
    obtain ⟨e', rfl⟩ := h
    exact TableMove.kept
  | ok s' =>
    unfold AgreesWith at h
    rw [h]
    exact hresult s' rfl

theorem executeMemFreeMut_kernel (addr : MemAddr) :
    (executeMemFreeMut s addr).2.kernel = s.kernel := by
  have hkernel := applyFreeMut_kernel s addr
  unfold executeMemFreeMut
  split
  · rfl
  · split
    · next hmut =>
      rw [hmut] at hkernel
      exact hkernel
    · next hmut =>
      rw [hmut] at hkernel
      exact hkernel

theorem hostExecuteMemFreeMut_kernel (hc : HostCall) :
    (HostFunction.executeMemFreeMut s hc).2.kernel = s.kernel := by
  unfold HostFunction.executeMemFreeMut
  split
  · rfl
  · next addr _ =>
    have hkernel := applyFreeMut_kernel s addr
    split
    · rfl
    · split
      · next hmut =>
        rw [hmut] at hkernel
        exact hkernel
      · next hmut =>
        rw [hmut] at hkernel
        exact hkernel

theorem moves_executeCapRevokeMut (h : s.kernel.revocation.Indexed) (c : CapId) :
    s.Moves (executeCapRevokeMut s c).2 := by
  have hmoves := moves_applyCapRevokeMut s h c
  unfold executeCapRevokeMut
  split
  · exact TableMove.kept
  · split
    · next hmut =>
      rw [hmut] at hmoves
      exact hmoves
    · next hmut =>
      rw [hmut] at hmoves
      exact hmoves

theorem moves_hostCapRevokeMut (h : s.kernel.revocation.Indexed) (hc : HostCall) :
    s.Moves (HostFunction.executeCapRevokeMut s hc).2 := by
  unfold HostFunction.executeCapRevokeMut
  split
  · exact TableMove.kept
  · next c _ => exact moves_executeCapRevokeMut h c

theorem moves_executeMut (h : s.kernel.revocation.Indexed) (step : Step) :
    s.Moves (step.executeMut s).2 := by
  cases step with
  | pluginInternal pid pi =>
    exact (agreesWith_pluginInternal s pid pi).moves fun _ ↦ moves_executePluginInternal
  | kernelInternal op => exact (agreesWith_kernelOp s op).moves fun _ ↦ moves_kernelOp
  | memFree caller addr => exact State.Moves.of_kernel_eq (executeMemFreeMut_kernel addr)
  | capRevoke caller c => exact moves_executeCapRevokeMut h c
  | hostCall hc auth result =>
    simp only [Step.executeMut, executeHostCallMut]
    split
    · exact TableMove.kept
    · by_cases hfree : hc.function = .memFree
      · rw [hfree]
        exact State.Moves.of_kernel_eq (hostExecuteMemFreeMut_kernel hc)
      · by_cases hrevoke : hc.function = .capRevoke
        · rw [hrevoke]
          exact moves_hostCapRevokeMut h hc
        · exact (agreesWith_function hc.function s hc result hfree hrevoke).moves
            fun _ ↦ moves_hostFunction

end Moves

theorem Reachable.indexed {s : State} (h : Reachable s) : s.kernel.revocation.Indexed := by
  induction h with
  | empty => exact RevocationState.indexed_empty
  | policy _ _ ih => exact ih
  | @insertPlugin s _ pid ps ih =>
    have hkernel : (s.insertPlugin pid ps).2.kernel = s.kernel := by
      unfold State.insertPlugin
      split <;> rfl
    exact hkernel ▸ ih
  | @insertActor s _ aid ar ih =>
    have hkernel : (s.insertActor aid ar).2.kernel = s.kernel := by
      unfold State.insertActor
      split <;> rfl
    exact hkernel ▸ ih
  | @insertResource s _ rid ri ih =>
    have hkernel : (s.insertResource rid ri).2.kernel = s.kernel := by
      unfold State.insertResource
      split <;> rfl
    exact hkernel ▸ ih
  | @insertWorkflow s _ wid wi ih =>
    have hkernel : (s.insertWorkflow wid wi).2.kernel = s.kernel := by
      unfold State.insertWorkflow
      split <;> rfl
    exact hkernel ▸ ih
  | delegate _ cap target hdelegate ih => exact (moves_applyCapDelegate _ hdelegate).indexed ih
  | delegateMut _ cap target ih => exact (moves_applyCapDelegateMut _ cap target).indexed ih
  | delegateCap _ sealPayload parentId target rights ih =>
    exact (moves_delegateCap _ sealPayload parentId target rights).indexed ih
  | revoke _ c ih => exact (moves_applyRevoke _ c).indexed ih
  | capRevoke _ c ih => exact (moves_applyCapRevoke _ c).indexed ih
  | capRevokeMut _ c ih => exact (moves_applyCapRevokeMut _ ih c).indexed ih
  | alloc _ owner size ih => exact ih
  | free _ addr hfree ih => exact applyFree_kernel _ hfree ▸ ih
  | @freeMut s _ addr ih => exact (applyFreeMut_kernel s addr).symm ▸ ih
  | @tick s _ ih =>
    have hrevocation : s.tick.2.kernel.revocation = s.kernel.revocation := by
      unfold State.tick KernelState.tickChecked
      cases checkedAdd s.kernel.now 1 <;> rfl
    exact hrevocation ▸ ih
  | execute _ step hexecute ih => exact (moves_execute hexecute).indexed ih
  | executeMut _ step ih => exact (moves_executeMut ih step).indexed ih

/-! ## When the paths agree -/

/-- The step frees `addr` once its checks have passed. -/
def Step.Frees (step : Step) (state : State) (addr : MemAddr) : Prop :=
  match step with
  | .memFree _ addr' => addr' = addr ∧ Freeable state addr
  | .hostCall hc auth _ => checkHostCall state hc auth = .ok () ∧ hc.function = .memFree ∧
      hc.args.head? = some addr ∧ Freeable state addr
  | _ => False

/-- The step revokes the present capability `c` once its checks have passed. -/
def Step.Revokes (step : Step) (state : State) (c : CapId) : Prop :=
  match step with
  | .capRevoke _ c' => c' = c ∧ state.kernel.revocation.contains c = true
  | .hostCall hc auth _ => checkHostCall state hc auth = .ok () ∧ hc.function = .capRevoke ∧
      hc.args.head? = some c ∧ state.kernel.revocation.contains c = true
  | _ => False

/-- In a reachable state the two paths of a step agree if and only if the step is not a free that
passes its checks and, where it revokes a capability, the fuel of the slow path covers every valid
descendant. -/
theorem agrees_iff {s : State} (h : Reachable s) (step : Step) :
    step.Agrees s ↔
      (∀ addr, ¬ step.Frees s addr) ∧
        ∀ c, step.Revokes s c → WithinFuel s.kernel.revocation c := by
  have hindexed := h.indexed
  cases step with
  | pluginInternal pid pi =>
    exact iff_of_true (agreesWith_pluginInternal s pid pi) ⟨fun _ ↦ id, fun _ h ↦ h.elim⟩
  | kernelInternal op => exact iff_of_true (agreesWith_kernelOp s op) ⟨fun _ ↦ id, fun _ h ↦ h.elim⟩
  | memFree caller addr =>
    refine (agreesWith_memFree_iff s addr).trans ?_
    simp [Step.Frees, Step.Revokes]
  | capRevoke caller c =>
    refine (agreesWith_capRevoke_iff hindexed c).trans ?_
    simp [Step.Frees, Step.Revokes]
  | hostCall hc auth result =>
    refine (agreesWith_hostCall_iff hindexed hc auth result).trans ?_
    simp only [Step.Frees, Step.Revokes, not_and]
    constructor
    · intro hagree
      refine ⟨fun addr hcheck hfunction hargs ↦ (hagree hcheck).1 hfunction addr hargs, ?_⟩
      rintro c ⟨hcheck, hfunction, hargs, hcontains⟩
      exact (hagree hcheck).2 hfunction c hargs hcontains
    · rintro ⟨hfrees, hrevokes⟩ hcheck
      exact ⟨fun hfunction addr hargs ↦ hfrees addr hcheck hfunction hargs,
        fun hfunction c hargs hcontains ↦ hrevokes c ⟨hcheck, hfunction, hargs, hcontains⟩⟩

/-- Plugin 1 holds capability 5. -/
def delegated : State := (State.empty.applyCapDelegateMut (RevocationState.readCap 5 none) 1).2

theorem agrees_iff_delegated : (Step.capRevoke 1 5).Agrees delegated := by
  have hreachable : Reachable delegated :=
    Reachable.delegateMut Reachable.empty (RevocationState.readCap 5 none) 1
  apply (agrees_iff hreachable (.capRevoke 1 5)).2
  refine ⟨fun addr hfrees ↦ hfrees, ?_⟩
  rintro c ⟨rfl, -⟩ k cap hget - -
  have hmem := hreachable.indexed.get_eq_some_iff.1 hget
  have hk : k = 5 := congrArg Prod.fst (List.mem_singleton.1 hmem)
  exact ⟨0, Nat.zero_le k, congrArg some hk⟩

/-- On the empty state the pure path frees an address that was never allocated. -/
theorem not_agrees_memFree : ¬ ∀ s, Reachable s → ∀ step : Step, step.Agrees s := by
  intro h
  have hagrees := h State.empty Reachable.empty (.memFree 1 0)
  exact absurd (congrArg Prod.fst hagrees) (by decide)

end Lionagi.LionCore
