import Lionagi.LionCore.KernelDispatch

/-!
# The state of the lion microkernel

The kernel proper, and sorted tables of plugins, actors, resources and workflows, next to a record of
which addresses are allocated and which were freed. Operations that exist as a pure and as a mutating
method are written twice, as in the source.
-/

namespace Lionagi.LionCore

open SortedTable

/-! ## Kernel state -/

structure KernelState where
  keyState : KeyState
  policy : PolicyState
  revocation : RevocationState
  now : Time
  nextCapId : CapId
  deriving DecidableEq

namespace KernelState

def initial (key : Key) (policy : PolicyState) : KernelState :=
  { keyState := KeyState.initial key, policy, revocation := RevocationState.empty, now := 0, nextCapId := 0 }

def default : KernelState := initial Key.empty PolicyState.denyAll

/-- An identifier is handed out before the counter is checked for an overflow of `u128`. -/
def allocCapId (kernel : KernelState) : Except KernelError CapId × KernelState :=
  if kernel.nextCapId + 1 < 2 ^ 128 then
    (.ok kernel.nextCapId, { kernel with nextCapId := kernel.nextCapId + 1 })
  else (.error .capIdExhausted, kernel)

def tickChecked (kernel : KernelState) : Except KernelError Unit × KernelState :=
  match checkedAdd kernel.now 1 with
  | some now => (.ok (), { kernel with now })
  | none => (.error (.counterOverflow "time"), kernel)

end KernelState

/-! ## Plugins -/

/-- The linear memory of a plugin. The model keeps the bounds; no step touches a page. -/
structure LinearMemory where
  bounds : Size
  deriving DecidableEq

def LinearMemory.addrInBounds (memory : LinearMemory) (addr : MemAddr) (len : Size) : Bool :=
  match checkedAdd addr len with
  | some stop => stop ≤ memory.bounds
  | none => false

structure PluginState where
  level : SecurityLevel
  memory : LinearMemory
  heldCaps : List CapId
  memoryQuota : ℕ
  memoryUsed : ℕ
  capQuota : ℕ
  ipcQueueLimit : ℕ
  deriving DecidableEq

namespace PluginState

def defaultQuota : ℕ := (2 ^ 64 - 1) / 2

def empty (level : SecurityLevel) (memSize : Size) : PluginState :=
  { level, memory := ⟨memSize⟩, heldCaps := [], memoryQuota := defaultQuota, memoryUsed := 0
    capQuota := defaultQuota, ipcQueueLimit := defaultQuota }

def holdsCap (plugin : PluginState) (capId : CapId) : Bool :=
  match binarySearchByKey id capId plugin.heldCaps with
  | .ok _ => true
  | .error _ => false

def grantCapMut (plugin : PluginState) (capId : CapId) : PluginState :=
  match binarySearchByKey id capId plugin.heldCaps with
  | .ok _ => plugin
  | .error pos => { plugin with heldCaps := plugin.heldCaps.insertIdx pos capId }

def canAllocMemory (plugin : PluginState) (size : ℕ) : Bool :=
  match checkedAdd plugin.memoryUsed size with
  | some total => total ≤ plugin.memoryQuota
  | none => false

end PluginState

/-! ## Actors -/

structure Message where
  id : MsgId
  src : PluginId
  dst : PluginId
  level : SecurityLevel
  body : List UInt8
  deriving DecidableEq

structure ActorRuntime where
  pending : List Message
  mailbox : List Message
  capacity : ℕ
  blockedOn : Option ActorId
  pendingSend : Option Message
  deriving DecidableEq

namespace ActorRuntime

def canReceive (actor : ActorRuntime) : Bool := !actor.mailbox.isEmpty

def isBlocked (actor : ActorRuntime) : Bool := actor.blockedOn.isSome

/-- A message moves from the router queue to the mailbox, if there is one and the mailbox has space. -/
def deliverMut (actor : ActorRuntime) : ActorRuntime :=
  match actor.pending with
  | [] => actor
  | msg :: pending =>
    if actor.mailbox.length < actor.capacity then
      { actor with pending, mailbox := actor.mailbox ++ [msg] }
    else actor

def consumeMut (actor : ActorRuntime) : ActorRuntime := { actor with mailbox := actor.mailbox.tail }

def unblockMut (actor : ActorRuntime) : ActorRuntime := { actor with blockedOn := none }

end ActorRuntime

/-! ## Workflows and resources -/

inductive WorkflowStatus where
  | running
  | success
  | failure
  deriving DecidableEq, Repr

/-- The model keeps the status of a workflow, which is what a tick looks at. -/
structure WorkflowInstance where
  status : WorkflowStatus
  deriving DecidableEq

def WorkflowInstance.isRunning (workflow : WorkflowInstance) : Bool := workflow.status == .running

structure ResourceInfo where
  level : SecurityLevel
  deriving DecidableEq

/-! ## Ghost state -/

inductive ResourceStatus where
  | unallocated
  | allocated (owner : PluginId)
  | freed
  deriving DecidableEq, Repr

def ResourceStatus.owner : ResourceStatus → Option PluginId
  | .allocated owner => some owner
  | .unallocated => none
  | .freed => none

inductive MemoryError where
  | outOfBounds (addr : MemAddr) (len bounds : Size)
  | doubleFree (addr : MemAddr)
  | useAfterFree (addr : MemAddr)
  | notAllocated (addr : MemAddr)
  deriving DecidableEq

/-- The life cycle of addresses: a map sorted by address, and the sorted set of freed addresses. -/
structure MetaState where
  resources : List (MemAddr × ResourceStatus)
  freedSet : List MemAddr
  deriving DecidableEq

namespace MetaState

def empty : MetaState := { resources := [], freedSet := [] }

def getStatus (ghost : MetaState) (addr : MemAddr) : Option ResourceStatus :=
  (lookup Prod.fst addr ghost.resources).map Prod.snd

/-- `insert` of a sorted map. -/
def setStatus (resources : List (MemAddr × ResourceStatus)) (addr : MemAddr) (status : ResourceStatus) :
    List (MemAddr × ResourceStatus) :=
  match binarySearchByKey Prod.fst addr resources with
  | .ok idx => resources.modify idx fun entry ↦ (entry.1, status)
  | .error pos => resources.insertIdx pos (addr, status)

def isFreed (ghost : MetaState) (addr : MemAddr) : Bool :=
  match binarySearchByKey id addr ghost.freedSet with
  | .ok _ => true
  | .error _ => false

def insertFreedAddr (freedSet : List MemAddr) (addr : MemAddr) : List MemAddr :=
  match binarySearchByKey id addr freedSet with
  | .ok _ => freedSet
  | .error pos => freedSet.insertIdx pos addr

def isLive (ghost : MetaState) (addr : MemAddr) : Bool :=
  match ghost.getStatus addr with
  | some (.allocated _) => !ghost.isFreed addr
  | _ => false

def alloc (ghost : MetaState) (addr : MemAddr) (owner : PluginId) : MetaState :=
  { ghost with resources := setStatus ghost.resources addr (.allocated owner) }

/-- The pure version leaves the status as it is. -/
def free (ghost : MetaState) (addr : MemAddr) : MetaState :=
  { ghost with freedSet := insertFreedAddr ghost.freedSet addr }

def allocMut (ghost : MetaState) (addr : MemAddr) (owner : PluginId) : MetaState :=
  { ghost with resources := setStatus ghost.resources addr (.allocated owner) }

/-- The mutating version requires an allocated address and updates its status. -/
def freeMut (ghost : MetaState) (addr : MemAddr) : Except MemoryError Unit × MetaState :=
  if ghost.isFreed addr then (.error (.doubleFree addr), ghost)
  else
    match ghost.getStatus addr with
    | some (.allocated _) =>
      (.ok (), { resources := setStatus ghost.resources addr .freed
                 freedSet := insertFreedAddr ghost.freedSet addr })
    | some .freed => (.error (.doubleFree addr), ghost)
    | _ => (.error (.notAllocated addr), ghost)

def resourceCount (ghost : MetaState) : ℕ := ghost.resources.length

end MetaState

/-! ## The state -/

inductive StateError where
  | pluginNotFound (pid : PluginId)
  | actorNotFound (aid : ActorId)
  | resourceNotFound (rid : ResourceId)
  | workflowNotFound (wid : WorkflowId)
  | capabilityNotFound (capId : CapId)
  | capabilityNotHeld (pid : PluginId) (capId : CapId)
  | isolationViolation (active affected : PluginId)
  | danglingCapability (addr : MemAddr)
  | pluginExists (pid : PluginId)
  | actorExists (aid : ActorId)
  | resourceExists (rid : ResourceId)
  | workflowExists (wid : WorkflowId)
  | counterOverflow (name : String)
  deriving DecidableEq

structure State where
  kernel : KernelState
  plugins : List (PluginId × PluginState)
  actors : List (ActorId × ActorRuntime)
  resources : List (ResourceId × ResourceInfo)
  workflows : List (WorkflowId × WorkflowInstance)
  ghost : MetaState
  deriving DecidableEq

namespace State

def empty : State :=
  { kernel := KernelState.default, plugins := [], actors := [], resources := [], workflows := []
    ghost := MetaState.empty }

def getPlugin (state : State) (pid : PluginId) : Option PluginState :=
  (lookup Prod.fst pid state.plugins).map Prod.snd

def getActor (state : State) (aid : ActorId) : Option ActorRuntime :=
  (lookup Prod.fst aid state.actors).map Prod.snd

def getWorkflow (state : State) (wid : WorkflowId) : Option WorkflowInstance :=
  (lookup Prod.fst wid state.workflows).map Prod.snd

def getCap (state : State) (capId : CapId) : Option Capability := state.kernel.revocation.get capId

def pluginLevel (state : State) (pid : PluginId) : Option SecurityLevel :=
  (state.getPlugin pid).map PluginState.level

def pluginHolds (state : State) (pid : PluginId) (capId : CapId) : Bool :=
  (state.getPlugin pid).any fun plugin ↦ plugin.holdsCap capId

/-- What is done through the reference that `get_plugin_mut` gives, if it gives one. -/
def updatePlugin (state : State) (pid : PluginId) (f : PluginState → PluginState) : State :=
  match binarySearchByKey Prod.fst pid state.plugins with
  | .ok idx => { state with plugins := state.plugins.modify idx fun entry ↦ (entry.1, f entry.2) }
  | .error _ => state

/-- What is done through the reference that `get_actor_mut` gives, if it gives one. -/
def updateActor (state : State) (aid : ActorId) (f : ActorRuntime → ActorRuntime) : State :=
  match binarySearchByKey Prod.fst aid state.actors with
  | .ok idx => { state with actors := state.actors.modify idx fun entry ↦ (entry.1, f entry.2) }
  | .error _ => state

/-! ### Insertions -/

def insertPlugin (state : State) (pid : PluginId) (ps : PluginState) : Except StateError Unit × State :=
  match binarySearchByKey Prod.fst pid state.plugins with
  | .ok _ => (.error (.pluginExists pid), state)
  | .error pos => (.ok (), { state with plugins := state.plugins.insertIdx pos (pid, ps) })

def insertActor (state : State) (aid : ActorId) (ar : ActorRuntime) : Except StateError Unit × State :=
  match binarySearchByKey Prod.fst aid state.actors with
  | .ok _ => (.error (.actorExists aid), state)
  | .error pos => (.ok (), { state with actors := state.actors.insertIdx pos (aid, ar) })

def insertResource (state : State) (rid : ResourceId) (ri : ResourceInfo) :
    Except StateError Unit × State :=
  match binarySearchByKey Prod.fst rid state.resources with
  | .ok _ => (.error (.resourceExists rid), state)
  | .error pos => (.ok (), { state with resources := state.resources.insertIdx pos (rid, ri) })

def insertWorkflow (state : State) (wid : WorkflowId) (wi : WorkflowInstance) :
    Except StateError Unit × State :=
  match binarySearchByKey Prod.fst wid state.workflows with
  | .ok _ => (.error (.workflowExists wid), state)
  | .error pos => (.ok (), { state with workflows := state.workflows.insertIdx pos (wid, wi) })

/-! ### Allocation and release -/

def applyAlloc (state : State) (owner : PluginId) (_size : Size) : State :=
  let addr := state.ghost.resourceCount
  { state with ghost := state.ghost.alloc addr owner }

def applyAllocMut (state : State) (owner : PluginId) (_size : Size) : MemAddr × State :=
  let addr := state.ghost.resourceCount
  (addr, { state with ghost := state.ghost.allocMut addr owner })

def applyFree (state : State) (addr : MemAddr) : Except StateError State :=
  if state.kernel.revocation.anyValidTargeting addr then .error (.danglingCapability addr)
  else .ok { state with ghost := state.ghost.free addr }

def applyFreeMut (state : State) (addr : MemAddr) : Except StateError Unit × State :=
  if state.kernel.revocation.anyValidTargeting addr then (.error (.danglingCapability addr), state)
  else
    match state.ghost.freeMut addr with
    | (.ok (), ghost) => (.ok (), { state with ghost })
    | (.error _, ghost) => (.error (.resourceNotFound addr), { state with ghost })

/-! ### Capabilities -/

def applyCapRevoke (state : State) (capId : CapId) : State :=
  { state with
    kernel := { state.kernel with revocation := state.kernel.revocation.revokeTransitive capId } }

def applyCapRevokeMut (state : State) (capId : CapId) : Except KernelError Unit × State :=
  match state.kernel.revocation.revokeTransitiveFastMut capId with
  | (result, revocation) => (result, { state with kernel := { state.kernel with revocation } })

def applyCapDelegate (state : State) (newCap : Capability) (target : PluginId) :
    Except KernelError State := do
  let capId := newCap.id
  let revocation ← state.kernel.revocation.insert newCap
  let state := { state with kernel := { state.kernel with revocation } }
  return state.updatePlugin target fun plugin ↦ plugin.grantCapMut capId

def applyCapDelegateMut (state : State) (newCap : Capability) (target : PluginId) :
    Except KernelError Unit × State :=
  let capId := newCap.id
  match state.kernel.revocation.insertMut newCap with
  | (.error e, revocation) => (.error e, { state with kernel := { state.kernel with revocation } })
  | (.ok (), revocation) =>
    let state := { state with kernel := { state.kernel with revocation } }
    (.ok (), state.updatePlugin target fun plugin ↦ plugin.grantCapMut capId)

/-- The single revocation, without descendants. -/
def applyRevoke (state : State) (capId : CapId) : State :=
  { state with kernel := { state.kernel with revocation := state.kernel.revocation.revoke capId } }

/-! ### Minting -/

inductive DelegateError where
  | kernel (e : KernelError)
  | capability (e : CapabilityError)
  deriving DecidableEq

/-- The kernel mints the child of a valid capability under the next identifier. `sealPayload` stands
for the sealing of a payload with a key. -/
def delegateCap (sealPayload : Key → CapPayload → SealedTag) (state : State) (parentId : CapId)
    (target : PluginId) (requestedRights : Rights) : Except DelegateError CapId × State :=
  match state.getCap parentId with
  | none => (.error (.kernel (.capNotFound parentId)), state)
  | some parent =>
    if !parent.isValid then (.error (.capability .revoked), state)
    else
      let childRights := requestedRights.combine parent.rights
      if childRights.isEmpty then (.error (.capability .emptyRights), state)
      else
        match state.kernel.allocCapId with
        | (.error e, kernel) => (.error (.kernel e), { state with kernel })
        | (.ok id, kernel) =>
          let state := { state with kernel }
          let epoch := kernel.keyState.epoch
          let payload : CapPayload :=
            { holder := target, target := parent.target, rights := childRights
              parent := some parentId, epoch }
          let sig := sealPayload kernel.keyState.current payload
          match Capability.new id target parent.target childRights (some parentId) epoch sig with
          | .error e => (.error (.capability e), state)
          | .ok child =>
            match state.applyCapDelegateMut child target with
            | (.error e, state) => (.error (.kernel e), state)
            | (.ok (), state) => (.ok id, state)

/-! ### Time -/

def tick (state : State) : Except StateError Unit × State :=
  match state.kernel.tickChecked with
  | (.ok (), kernel) => (.ok (), { state with kernel })
  | (.error _, kernel) => (.error (.counterOverflow "time"), { state with kernel })

end State

end Lionagi.LionCore
