import Lionagi.LionCore.Authorization

/-!
# Steps of the microkernel

A step is a computation inside a plugin, an authorised host call, an operation of the kernel, or one
of two direct operations that free an address or revoke a capability. Every step executes in two ways:
the pure path returns a new state, the mutating path returns its result together with the state it
leaves behind.
-/

namespace Lionagi.LionCore

/-! ## Errors -/

inductive PluginPrecondition where
  | blocked (pid : PluginId) (blockedOn : Option ActorId)
  | readOutOfBounds (addr : MemAddr) (size bounds : Size)
  | writeOutOfBounds (addr : MemAddr) (size bounds : Size)
  | mailboxEmpty
  deriving DecidableEq

inductive HostCallPrecondition where
  | readOutOfBounds (addr : MemAddr) (size : Size)
  | writeOutOfBounds (addr : MemAddr) (size : Size)
  | noValidCapability
  | noMessage
  | sourceMismatch
  | mailboxFull
  | invalidSecurityLevel (value : ℕ)
  | cannotClassifyUp
  | noAddress
  | noCapabilityId
  | freeFailed (source : StateError)
  | notImplemented (operation : String)
  deriving DecidableEq

inductive KernelOpError where
  | noPendingMessages (dst : ActorId)
  | mailboxAtCapacity (dst : ActorId)
  | workflowNotFound (wid : WorkflowId)
  | workflowNotRunning (wid : WorkflowId)
  | notImplemented (operation : String)
  | counterOverflow (message : String)
  deriving DecidableEq

inductive InvalidTransitionReason where
  | incompatibleStates (expected found : String)
  deriving DecidableEq

inductive StepError where
  | pluginNotFound (pid : PluginId)
  | actorNotFound (aid : ActorId)
  | addressAlreadyFreed (addr : MemAddr)
  | capabilityTargetsAddress (capId : CapId) (addr : MemAddr)
  | capabilityNotFound (capId : CapId)
  | authorizationFailed (e : AuthorizationError)
  | pluginPreconditionFailed (reason : PluginPrecondition)
  | hostCallPreconditionFailed (reason : HostCallPrecondition)
  | kernelOpFailed (reason : KernelOpError)
  | invalidTransition (reason : InvalidTransitionReason)
  | stateError (e : StateError)
  | quotaExceeded (kind requested current quota : ℕ)
  deriving DecidableEq

/-- The text of the overflow error of the clock. -/
def timeOverflow : StepError := .kernelOpFailed (.counterOverflow "time counter overflow")

/-! ## Computations inside a plugin -/

structure PluginInternal where
  reads : List (MemAddr × Size)
  writes : List (MemAddr × Size)
  consumeMailbox : Bool
  deriving DecidableEq

namespace PluginInternal

def findOobRead (pi : PluginInternal) (plugin : PluginState) : Option StepError :=
  pi.reads.findSome? fun region ↦
    if plugin.memory.addrInBounds region.1 region.2 then none
    else some (.pluginPreconditionFailed (.readOutOfBounds region.1 region.2 plugin.memory.bounds))

def findOobWrite (pi : PluginInternal) (plugin : PluginState) : Option StepError :=
  pi.writes.findSome? fun region ↦
    if plugin.memory.addrInBounds region.1 region.2 then none
    else some (.pluginPreconditionFailed (.writeOutOfBounds region.1 region.2 plugin.memory.bounds))

def checkPreconditions (pi : PluginInternal) (state : State) (pid : PluginId) : Except StepError Unit := do
  let some plugin := state.getPlugin pid | .error (.pluginNotFound pid)
  if let some actor := state.getActor pid then
    if actor.isBlocked then
      .error (.pluginPreconditionFailed (.blocked pid actor.blockedOn))
  if let some err := pi.findOobRead plugin then .error err
  if let some err := pi.findOobWrite plugin then .error err
  if pi.consumeMailbox then
    if let some actor := state.getActor pid then
      if !actor.canReceive then
        .error (.pluginPreconditionFailed .mailboxEmpty)
  return ()

/-- The check of the first byte of every written region, which precedes the effect. -/
def findOobByte (pi : PluginInternal) (plugin : PluginState) : Option StepError :=
  pi.writes.findSome? fun region ↦
    if plugin.memory.addrInBounds region.1 1 then none
    else some (.pluginPreconditionFailed (.writeOutOfBounds region.1 1 plugin.memory.bounds))

end PluginInternal

def executePluginInternal (state : State) (pid : PluginId) (pi : PluginInternal) :
    Except StepError State := do
  let some plugin := state.getPlugin pid | .error (.pluginNotFound pid)
  pi.checkPreconditions state pid
  match pi.findOobByte plugin with
  | some err => .error err
  | none =>
    if pi.consumeMailbox then .ok (state.updateActor pid ActorRuntime.consumeMut)
    else .ok state

def executePluginInternalMut (state : State) (pid : PluginId) (pi : PluginInternal) :
    Except StepError Unit × State :=
  match state.getPlugin pid with
  | none => (.error (.pluginNotFound pid), state)
  | some plugin =>
    match pi.checkPreconditions state pid with
    | .error e => (.error e, state)
    | .ok () =>
      match pi.findOobByte plugin with
      | some err => (.error err, state)
      | none =>
        if pi.consumeMailbox then (.ok (), state.updateActor pid ActorRuntime.consumeMut)
        else (.ok (), state)

/-! ## Host calls -/

inductive HostFunction where
  | capCall
  | capSend
  | kernelAlloc
  | memFree
  | capRevoke
  | declassify
  | threadCreate
  | threadConfigure
  | threadResume
  | threadSuspend
  | threadDestroy
  deriving DecidableEq, Repr

structure HostCall where
  caller : PluginId
  function : HostFunction
  args : List ℕ
  reads : List (MemAddr × Size)
  writes : List (MemAddr × Size)
  deriving DecidableEq

structure HostResult where
  newCaps : List Capability
  newMsgs : List Message
  deriving DecidableEq

def threadOperations : StepError := .hostCallPreconditionFailed (.notImplemented "thread operations")

namespace HostCall

/-- An action of the caller; the kinds below are not empty, so it is always built. -/
def action (hc : HostCall) (target : ResourceId) (right : Right) (kind : String) :
    Except StepError Action :=
  match Action.new hc.caller target (Rights.singleton right) kind with
  | .ok action => .ok action
  | .error _ => .error (.hostCallPreconditionFailed .noCapabilityId)

def requiredAction (hc : HostCall) : Except StepError Action :=
  match hc.function with
  | .capCall =>
    match hc.args.head? with
    | some target => hc.action target .read "cap_call"
    | none => .error (.hostCallPreconditionFailed .noCapabilityId)
  | .kernelAlloc => hc.action 0 .create "kernel_alloc"
  | .memFree =>
    match hc.args.head? with
    | some addr => hc.action addr .delete "mem_free"
    | none => .error (.hostCallPreconditionFailed .noAddress)
  | .capRevoke =>
    match hc.args.head? with
    | some capId => hc.action capId .revoke "cap_revoke"
    | none => .error (.hostCallPreconditionFailed .noCapabilityId)
  | .declassify => hc.action 0 .declassify "declassify"
  | .capSend => hc.action 0 .send "cap_send"
  | _ => .error threadOperations

def findOobRead (hc : HostCall) (plugin : PluginState) : Option StepError :=
  hc.reads.findSome? fun region ↦
    if plugin.memory.addrInBounds region.1 region.2 then none
    else some (.hostCallPreconditionFailed (.readOutOfBounds region.1 region.2))

def findOobWrite (hc : HostCall) (plugin : PluginState) : Option StepError :=
  hc.writes.findSome? fun region ↦
    if plugin.memory.addrInBounds region.1 region.2 then none
    else some (.hostCallPreconditionFailed (.writeOutOfBounds region.1 region.2))

def checkPreconditions (hc : HostCall) (state : State) : Except StepError Unit := do
  let some plugin := state.getPlugin hc.caller | .error (.pluginNotFound hc.caller)
  if let some err := hc.findOobRead plugin then .error err
  if let some err := hc.findOobWrite plugin then .error err
  return ()

end HostCall

namespace HostFunction

/-- The caller exists and one of the capabilities it holds is valid. -/
def checkCapCall (state : State) (hc : HostCall) : Except StepError Unit := do
  let some plugin := state.getPlugin hc.caller | .error (.pluginNotFound hc.caller)
  if plugin.heldCaps.any state.kernel.revocation.isValid then return ()
  else .error (.hostCallPreconditionFailed .noValidCapability)

def checkMessage (state : State) (hc : HostCall) (msg : Message) : Except StepError Unit :=
  if msg.src ≠ hc.caller then .error (.hostCallPreconditionFailed .sourceMismatch)
  else
    match state.getActor msg.dst with
    | none => .error (.actorNotFound msg.dst)
    | some dstActor =>
      if dstActor.mailbox.length ≥ dstActor.capacity then
        .error (.hostCallPreconditionFailed .mailboxFull)
      else .ok ()

def checkCapSend (state : State) (hc : HostCall) (result : HostResult) : Except StepError Unit := do
  if result.newMsgs.isEmpty then .error (.hostCallPreconditionFailed .noMessage)
  result.newMsgs.forM (checkMessage state hc)

def checkKernelAlloc (state : State) (hc : HostCall) (size : Size) : Except StepError Unit := do
  let some plugin := state.getPlugin hc.caller | .error (.pluginNotFound hc.caller)
  if !plugin.canAllocMemory size then
    .error (.quotaExceeded 0 size plugin.memoryUsed plugin.memoryQuota)
  return ()

/-- A freed address, or one that a valid capability targets, is not freed. -/
def checkFree (state : State) (addr : MemAddr) : Except StepError Unit :=
  if state.ghost.isFreed addr then .error (.addressAlreadyFreed addr)
  else
    match state.kernel.revocation.caps.find? fun entry ↦ entry.2.isValid && entry.2.target == addr with
    | some entry => .error (.capabilityTargetsAddress entry.1 addr)
    | none => .ok ()

def checkRevoke (state : State) (capId : CapId) : Except StepError Unit :=
  match state.kernel.revocation.get capId with
  | none => .error (.capabilityNotFound capId)
  | some _ => .ok ()

def decodeLevel (value : ℕ) : Except StepError SecurityLevel :=
  match value with
  | 0 => .ok .publicLevel
  | 1 => .ok .internal
  | 2 => .ok .confidential
  | 3 => .ok .secret
  | other => .error (.hostCallPreconditionFailed (.invalidSecurityLevel other))

def checkDeclassify (state : State) (hc : HostCall) (newLevel : SecurityLevel) :
    Except StepError Unit := do
  let some plugin := state.getPlugin hc.caller | .error (.pluginNotFound hc.caller)
  if newLevel ≤ plugin.level then return ()
  else .error (.hostCallPreconditionFailed .cannotClassifyUp)

def charge (size : Size) (plugin : PluginState) : PluginState :=
  { plugin with memoryUsed := saturatingAdd plugin.memoryUsed size }

/-! ### The pure path -/

def executeCapCall (state : State) (hc : HostCall) : Except StepError State := do
  checkCapCall state hc
  return state

def executeCapSend (state : State) (hc : HostCall) (result : HostResult) : Except StepError State := do
  checkCapSend state hc result
  return state

def executeKernelAlloc (state : State) (hc : HostCall) : Except StepError State := do
  let size := hc.args.head?.getD 0
  checkKernelAlloc state hc size
  return (state.applyAlloc hc.caller size).updatePlugin hc.caller (charge size)

def executeMemFree (state : State) (hc : HostCall) : Except StepError State := do
  let some addr := hc.args.head? | .error (.hostCallPreconditionFailed .noAddress)
  checkFree state addr
  match state.applyFree addr with
  | .ok state => return state
  | .error e => .error (.hostCallPreconditionFailed (.freeFailed e))

def executeCapRevoke (state : State) (hc : HostCall) : Except StepError State := do
  let some capId := hc.args.head? | .error (.hostCallPreconditionFailed .noCapabilityId)
  checkRevoke state capId
  return state.applyCapRevoke capId

def executeDeclassify (state : State) (hc : HostCall) : Except StepError State := do
  let newLevel ← decodeLevel (hc.args.head?.getD 0)
  checkDeclassify state hc newLevel
  return state.updatePlugin hc.caller fun plugin ↦ { plugin with level := newLevel }

def execute (function : HostFunction) (state : State) (hc : HostCall) (result : HostResult) :
    Except StepError State :=
  match function with
  | .capCall => executeCapCall state hc
  | .capSend => executeCapSend state hc result
  | .kernelAlloc => executeKernelAlloc state hc
  | .memFree => executeMemFree state hc
  | .capRevoke => executeCapRevoke state hc
  | .declassify => executeDeclassify state hc
  | .threadCreate | .threadConfigure | .threadResume | .threadSuspend | .threadDestroy =>
    .error threadOperations

/-! ### The mutating path -/

def executeCapCallMut (state : State) (hc : HostCall) : Except StepError Unit × State :=
  (checkCapCall state hc, state)

def executeCapSendMut (state : State) (hc : HostCall) (result : HostResult) :
    Except StepError Unit × State :=
  (checkCapSend state hc result, state)

def executeKernelAllocMut (state : State) (hc : HostCall) : Except StepError Unit × State :=
  let size := hc.args.head?.getD 0
  match checkKernelAlloc state hc size with
  | .error e => (.error e, state)
  | .ok () =>
    match state.applyAllocMut hc.caller size with
    | (_, state) => (.ok (), state.updatePlugin hc.caller (charge size))

def executeMemFreeMut (state : State) (hc : HostCall) : Except StepError Unit × State :=
  match hc.args.head? with
  | none => (.error (.hostCallPreconditionFailed .noAddress), state)
  | some addr =>
    match checkFree state addr with
    | .error e => (.error e, state)
    | .ok () =>
      match state.applyFreeMut addr with
      | (.ok (), state) => (.ok (), state)
      | (.error e, state) => (.error (.hostCallPreconditionFailed (.freeFailed e)), state)

def executeCapRevokeMut (state : State) (hc : HostCall) : Except StepError Unit × State :=
  match hc.args.head? with
  | none => (.error (.hostCallPreconditionFailed .noCapabilityId), state)
  | some capId =>
    match checkRevoke state capId with
    | .error e => (.error e, state)
    | .ok () =>
      match state.applyCapRevokeMut capId with
      | (.ok (), state) => (.ok (), state)
      | (.error _, state) => (.error (.capabilityNotFound capId), state)

def executeDeclassifyMut (state : State) (hc : HostCall) : Except StepError Unit × State :=
  match decodeLevel (hc.args.head?.getD 0) with
  | .error e => (.error e, state)
  | .ok newLevel =>
    match checkDeclassify state hc newLevel with
    | .error e => (.error e, state)
    | .ok () => (.ok (), state.updatePlugin hc.caller fun plugin ↦ { plugin with level := newLevel })

def executeMut (function : HostFunction) (state : State) (hc : HostCall) (result : HostResult) :
    Except StepError Unit × State :=
  match function with
  | .capCall => executeCapCallMut state hc
  | .capSend => executeCapSendMut state hc result
  | .kernelAlloc => executeKernelAllocMut state hc
  | .memFree => executeMemFreeMut state hc
  | .capRevoke => executeCapRevokeMut state hc
  | .declassify => executeDeclassifyMut state hc
  | .threadCreate | .threadConfigure | .threadResume | .threadSuspend | .threadDestroy =>
    (.error threadOperations, state)

end HostFunction

/-! ## Kernel operations -/

inductive KernelOp where
  | routeOne (dst : ActorId)
  | workflowTick (wid : WorkflowId)
  | timeTick
  | unblockSend (dst : ActorId)
  | threadSwitch (source target : ThreadId)
  deriving DecidableEq

namespace KernelOp

def checkRouteOne (state : State) (dst : ActorId) : Except StepError Unit := do
  let some actor := state.getActor dst | .error (.actorNotFound dst)
  if actor.pending.length = 0 then .error (.kernelOpFailed (.noPendingMessages dst))
  if actor.mailbox.length ≥ actor.capacity then .error (.kernelOpFailed (.mailboxAtCapacity dst))
  return ()

def checkWorkflowTick (state : State) (wid : WorkflowId) : Except StepError Unit := do
  let some workflow := state.getWorkflow wid | .error (.kernelOpFailed (.workflowNotFound wid))
  if !workflow.isRunning then .error (.kernelOpFailed (.workflowNotRunning wid))
  return ()

def checkUnblockSend (state : State) (dst : ActorId) : Except StepError Unit :=
  match state.getActor dst with
  | none => .error (.actorNotFound dst)
  | some _ => .ok ()

def execute (op : KernelOp) (state : State) : Except StepError State :=
  match op with
  | .routeOne dst => do
    checkRouteOne state dst
    return state.updateActor dst ActorRuntime.deliverMut
  | .workflowTick wid => do
    checkWorkflowTick state wid
    return state
  | .timeTick =>
    match state.tick with
    | (.ok (), state) => .ok state
    | (.error _, _) => .error timeOverflow
  | .unblockSend dst => do
    checkUnblockSend state dst
    return state.updateActor dst ActorRuntime.unblockMut
  | .threadSwitch _ _ => .error (.kernelOpFailed (.notImplemented "thread_switch"))

def executeMut (op : KernelOp) (state : State) : Except StepError Unit × State :=
  match op with
  | .routeOne dst =>
    match checkRouteOne state dst with
    | .error e => (.error e, state)
    | .ok () => (.ok (), state.updateActor dst ActorRuntime.deliverMut)
  | .workflowTick wid => (checkWorkflowTick state wid, state)
  | .timeTick =>
    match state.tick with
    | (.ok (), state) => (.ok (), state)
    | (.error _, state) => (.error timeOverflow, state)
  | .unblockSend dst =>
    match checkUnblockSend state dst with
    | .error e => (.error e, state)
    | .ok () => (.ok (), state.updateActor dst ActorRuntime.unblockMut)
  | .threadSwitch _ _ => (.error (.kernelOpFailed (.notImplemented "thread_switch")), state)

end KernelOp

/-! ## Steps -/

inductive Step where
  | pluginInternal (pid : PluginId) (pi : PluginInternal)
  | hostCall (hc : HostCall) (auth : Authorized) (result : HostResult)
  | kernelInternal (op : KernelOp)
  | memFree (caller : PluginId) (addr : MemAddr)
  | capRevoke (caller : PluginId) (capId : CapId)

/-- What a host call passes before its function executes: the witness is for this caller and this
action, validates against the current state, and the regions are in bounds. -/
def checkHostCall (state : State) (hc : HostCall) (auth : Authorized) : Except StepError Unit := do
  if auth.action.subject ≠ hc.caller then
    .error (.authorizationFailed (.holderMismatch auth.action.subject hc.caller))
  let derived ← hc.requiredAction
  if derived ≠ auth.action then
    .error (.invalidTransition (.incompatibleStates "authorized host call" "mismatched host call"))
  match auth.validate state with
  | .error e => .error (.authorizationFailed e)
  | .ok () => hc.checkPreconditions state

def executeHostCall (state : State) (hc : HostCall) (auth : Authorized) (result : HostResult) :
    Except StepError State := do
  checkHostCall state hc auth
  hc.function.execute state hc result

def executeHostCallMut (state : State) (hc : HostCall) (auth : Authorized) (result : HostResult) :
    Except StepError Unit × State :=
  match checkHostCall state hc auth with
  | .error e => (.error e, state)
  | .ok () => hc.function.executeMut state hc result

def executeMemFree (state : State) (addr : MemAddr) : Except StepError State := do
  HostFunction.checkFree state addr
  match state.applyFree addr with
  | .ok state => return state
  | .error e => .error (.stateError e)

def executeMemFreeMut (state : State) (addr : MemAddr) : Except StepError Unit × State :=
  match HostFunction.checkFree state addr with
  | .error e => (.error e, state)
  | .ok () =>
    match state.applyFreeMut addr with
    | (.ok (), state) => (.ok (), state)
    | (.error e, state) => (.error (.stateError e), state)

def executeCapRevoke (state : State) (capId : CapId) : Except StepError State := do
  HostFunction.checkRevoke state capId
  return state.applyCapRevoke capId

def executeCapRevokeMut (state : State) (capId : CapId) : Except StepError Unit × State :=
  match HostFunction.checkRevoke state capId with
  | .error e => (.error e, state)
  | .ok () =>
    match state.applyCapRevokeMut capId with
    | (.ok (), state) => (.ok (), state)
    | (.error _, state) => (.error (.capabilityNotFound capId), state)

namespace Step

def subject : Step → Option PluginId
  | .pluginInternal pid _ => some pid
  | .hostCall hc _ _ => some hc.caller
  | .kernelInternal _ => none
  | .memFree caller _ => some caller
  | .capRevoke caller _ => some caller

/-- The caller of a direct operation is not looked at. -/
def execute (step : Step) (state : State) : Except StepError State :=
  match step with
  | .pluginInternal pid pi => executePluginInternal state pid pi
  | .hostCall hc auth result => executeHostCall state hc auth result
  | .kernelInternal op => op.execute state
  | .memFree _ addr => executeMemFree state addr
  | .capRevoke _ capId => executeCapRevoke state capId

def executeMut (step : Step) (state : State) : Except StepError Unit × State :=
  match step with
  | .pluginInternal pid pi => executePluginInternalMut state pid pi
  | .hostCall hc auth result => executeHostCallMut state hc auth result
  | .kernelInternal op => op.executeMut state
  | .memFree _ addr => executeMemFreeMut state addr
  | .capRevoke _ capId => executeCapRevokeMut state capId

end Step

end Lionagi.LionCore
