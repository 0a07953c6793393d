import Lionagi.LionCore.State

/-!
# Authorization

The witness of an authorised action is built by one atomic validation. The checks read the holder, the
target, the rights and the parent from the capability that the caller supplies, and the existence and
the validity from the kernel's own table. What the table holds under the supplied identifier is
therefore the authority that was claimed exactly when it agrees with the supplied capability and its
own chain of ancestors is valid.
-/

namespace Lionagi.LionCore

open ParentForest

inductive AuthorizationError where
  | capabilityNotFound (id : CapId)
  | capabilityRevoked (id : CapId)
  | holderMismatch (expected actual : PluginId)
  | targetMismatch (expected actual : ResourceId)
  | insufficientRights
  | policyDenied
  | resourceNotLive (addr : MemAddr)
  | bibaViolation (writerLevel targetLevel : SecurityLevel)
  | capabilityNotHeld (id : CapId)
  deriving DecidableEq

/-- `as MemAddr` on a resource identifier keeps the low 64 bits. -/
def truncate (target : ResourceId) : MemAddr := target % 2 ^ 64

def resourceIntegrity (state : State) (rid : MemAddr) : SecurityLevel :=
  match state.ghost.getStatus rid with
  | some status =>
    match status.owner with
    | some owner => (state.pluginLevel owner).getD .publicLevel
    | none => .publicLevel
  | none => .publicLevel

def bibaWriteOk (state : State) (action : Action) : Bool :=
  if !action.rights.contains .write then true
  else
    let writerLevel := (state.pluginLevel action.subject).getD .publicLevel
    let targetLevel := resourceIntegrity state (truncate action.target)
    decide (targetLevel ≤ writerLevel)

/-! ## The checks -/

section Checks

variable (state : State) (cap : Capability) (action : Action) (ctx : PolicyContext)

def checkCapability : Except AuthorizationError Unit :=
  if cap.holder ≠ action.subject then .error (.holderMismatch action.subject cap.holder)
  else if cap.target ≠ action.target then .error (.targetMismatch action.target cap.target)
  else if !action.rights.isSubsetOf cap.rights then .error .insufficientRights
  else if !state.pluginHolds action.subject cap.id then .error (.capabilityNotHeld cap.id)
  else .ok ()

def checkPolicy : Except AuthorizationError Unit :=
  if (state.kernel.policy.eval action ctx).isPermit then .ok () else .error .policyDenied

/-- The parent that is checked is the parent of the supplied capability. -/
def checkValidity : Except AuthorizationError Unit :=
  match state.kernel.revocation.get cap.id with
  | none => .error (.capabilityNotFound cap.id)
  | some kernelCap =>
    if !kernelCap.isValid then .error (.capabilityRevoked cap.id)
    else
      match cap.parent with
      | some parentId =>
        if !state.kernel.revocation.isValid parentId then .error (.capabilityRevoked parentId)
        else .ok ()
      | none => .ok ()

def checkLiveness : Except AuthorizationError Unit :=
  if !state.ghost.isLive (truncate action.target) then
    .error (.resourceNotLive (truncate action.target))
  else .ok ()

def checkConfinement : Except AuthorizationError Unit :=
  if !action.rights.isSubsetOf cap.rights then .error .insufficientRights else .ok ()

def checkBiba : Except AuthorizationError Unit :=
  if !bibaWriteOk state action then
    .error (.bibaViolation ((state.pluginLevel action.subject).getD .publicLevel)
      (resourceIntegrity state (truncate action.target)))
  else .ok ()

def checkAll : Except AuthorizationError Unit := do
  checkCapability state cap action
  checkPolicy state action ctx
  checkValidity state cap
  checkLiveness state action
  checkConfinement cap action
  checkBiba state action

end Checks

/-- An authorization witness: only an atomic validation against some state builds one. -/
structure Authorized where
  cap : Capability
  action : Action
  ctx : PolicyContext
  validated : ∃ state : State, checkAll state cap action ctx = .ok ()

namespace Authorized

def validateAtomic (state : State) (cap : Capability) (action : Action) (ctx : PolicyContext) :
    Except AuthorizationError Authorized :=
  match h : checkAll state cap action ctx with
  | .ok () => .ok { cap, action, ctx, validated := ⟨state, h⟩ }
  | .error e => .error e

/-- The same checks, when the witness is used. -/
def validate (auth : Authorized) (state : State) : Except AuthorizationError Unit :=
  checkAll state auth.cap auth.action auth.ctx

end Authorized

/-! ## What the checks establish -/

section Passes

variable {state : State} {cap : Capability} {action : Action} {ctx : PolicyContext}

/-- The conditions of the six checks: on the supplied capability, on the policy, on the table, on the
target and on the levels. -/
structure Passes (state : State) (cap : Capability) (action : Action) (ctx : PolicyContext) : Prop where
  holder : cap.holder = action.subject
  target : cap.target = action.target
  rights : action.rights.isSubsetOf cap.rights = true
  held : state.pluginHolds action.subject cap.id = true
  policy : (state.kernel.policy.eval action ctx).isPermit = true
  valid : state.kernel.revocation.isValid cap.id = true
  parent : ∀ p, cap.parent = some p → state.kernel.revocation.isValid p = true
  live : state.ghost.isLive (truncate action.target) = true
  biba : bibaWriteOk state action = true

theorem check_bind_eq_ok_iff {ε α : Type} {x : Except ε Unit} {y : Except ε α} {a : α} :
    (do x; y) = Except.ok a ↔ x = .ok () ∧ y = .ok a := by
  cases x with
  | error e => simp [bind, Except.bind]
  | ok u => simp [bind, Except.bind]

theorem checkCapability_eq_ok_iff : checkCapability state cap action = .ok () ↔
    cap.holder = action.subject ∧ cap.target = action.target ∧
      action.rights.isSubsetOf cap.rights = true ∧ state.pluginHolds action.subject cap.id = true := by
  unfold checkCapability
  split_ifs <;> simp_all

theorem checkPolicy_eq_ok_iff : checkPolicy state action ctx = .ok () ↔
    (state.kernel.policy.eval action ctx).isPermit = true := by
  unfold checkPolicy
  split_ifs <;> simp_all

theorem checkValidity_eq_ok_iff : checkValidity state cap = .ok () ↔
    state.kernel.revocation.isValid cap.id = true ∧
      ∀ p, cap.parent = some p → state.kernel.revocation.isValid p = true := by
  unfold checkValidity
  rw [RevocationState.isValid]
  cases state.kernel.revocation.get cap.id with
  | none => simp
  | some kernelCap =>
    cases hparent : cap.parent with
    | none => cases hvalid : kernelCap.isValid <;> simp [hvalid]
    | some p =>
      cases hvalid : kernelCap.isValid <;> cases hp : state.kernel.revocation.isValid p <;>
        simp [hvalid, hp]

theorem checkLiveness_eq_ok_iff : checkLiveness state action = .ok () ↔
    state.ghost.isLive (truncate action.target) = true := by
  unfold checkLiveness
  split_ifs <;> simp_all

theorem checkConfinement_eq_ok_iff : checkConfinement cap action = .ok () ↔
    action.rights.isSubsetOf cap.rights = true := by
  unfold checkConfinement
  split_ifs <;> simp_all

theorem checkBiba_eq_ok_iff : checkBiba state action = .ok () ↔ bibaWriteOk state action = true := by
  unfold checkBiba
  split_ifs <;> simp_all

theorem checkAll_eq_ok_iff : checkAll state cap action ctx = .ok () ↔ Passes state cap action ctx := by
  simp only [checkAll, check_bind_eq_ok_iff, checkCapability_eq_ok_iff, checkPolicy_eq_ok_iff,
    checkValidity_eq_ok_iff, checkLiveness_eq_ok_iff, checkConfinement_eq_ok_iff, checkBiba_eq_ok_iff]
  constructor
  · rintro ⟨⟨holder, target, rights, held⟩, policy, ⟨valid, parent⟩, live, -, biba⟩
    exact ⟨holder, target, rights, held, policy, valid, parent, live, biba⟩
  · intro h
    exact ⟨⟨h.holder, h.target, h.rights, h.held⟩, h.policy, ⟨h.valid, h.parent⟩, h.live, h.rights,
      h.biba⟩

theorem validateAtomic_isOk_iff :
    (∃ auth, Authorized.validateAtomic state cap action ctx = .ok auth) ↔
      Passes state cap action ctx := by
  rw [← checkAll_eq_ok_iff]
  unfold Authorized.validateAtomic
  constructor
  · rintro ⟨auth, hauth⟩
    split at hauth
    · next h => exact h
    · cases hauth
  · intro h
    split
    · exact ⟨_, rfl⟩
    · next e he =>
      rw [h] at he
      cases he

end Passes

/-! ## The authority of the stored capability -/

/-- The kernel's record under `capId` carries the authority for the action: it is valid, belongs to
the subject and is held by it, targets the action's target with the action's rights, and every
ancestor on its stored parent chain is present and valid. -/
structure StoredAuthority (state : State) (capId : CapId) (action : Action) (stored : Capability) :
    Prop where
  recorded : state.kernel.revocation.get capId = some stored
  valid : stored.isValid = true
  holder : stored.holder = action.subject
  target : stored.target = action.target
  rights : action.rights.isSubsetOf stored.rights = true
  held : state.pluginHolds action.subject capId = true
  ancestors : ∀ p a, stored.parent = some p → state.kernel.revocation.Descends p a →
    state.kernel.revocation.isValid a = true

/-- The kernel's record agrees with what was supplied, and its chain of ancestors is valid. -/
structure Genuine (state : State) (cap : Capability) (action : Action) (stored : Capability) : Prop where
  recorded : state.kernel.revocation.get cap.id = some stored
  holder : stored.holder = cap.holder
  target : stored.target = cap.target
  rights : action.rights.isSubsetOf stored.rights = true
  ancestors : ∀ p a, stored.parent = some p → state.kernel.revocation.Descends p a →
    state.kernel.revocation.isValid a = true

theorem Passes.storedAuthority_iff {state : State} {cap : Capability} {action : Action}
    {ctx : PolicyContext} (h : Passes state cap action ctx) (stored : Capability) :
    StoredAuthority state cap.id action stored ↔ Genuine state cap action stored := by
  constructor
  · intro hstored
    exact
      { recorded := hstored.recorded
        holder := hstored.holder.trans h.holder.symm
        target := hstored.target.trans h.target.symm
        rights := hstored.rights
        ancestors := hstored.ancestors }
  · intro hgenuine
    obtain ⟨kernelCap, hget, hvalid⟩ := (RevocationState.isValid_iff cap.id).1 h.valid
    rw [hgenuine.recorded] at hget
    cases hget
    exact
      { recorded := hgenuine.recorded
        valid := hvalid
        holder := hgenuine.holder.trans h.holder
        target := hgenuine.target.trans h.target
        rights := hgenuine.rights
        held := h.held
        ancestors := hgenuine.ancestors }

section Forged

open RevocationState

/-- Plugin 1 holds a capability to read resource 7; resource 8 is live. -/
def guarded : State :=
  { State.empty with
    kernel := { KernelState.initial Key.empty PolicyState.permitAll with
      revocation := { caps := [(5, readCap 5 none)], epoch := 0, childrenIndex := [] } }
    plugins := [(1, (PluginState.empty .publicLevel 0).grantCapMut 5)]
    ghost := { resources := [(8, .allocated 2)], freedSet := [] } }

/-- It has the identifier of the held capability and another target. -/
def forgedCap : Capability := { readCap 5 none with target := 8 }

def readEight : Action := { subject := 1, target := 8, rights := Rights.singleton .read, kind := "read" }

end Forged

end Lionagi.LionCore
