import Mathlib.Data.Nat.Notation
import Mathlib.Tactic.IntervalCases

/-!
# Capabilities, rights and policies of the lion kernel

Identifiers are natural numbers; where the width of a machine integer shows, the bound is written at
the operation. Capabilities can be built by `Capability.new` alone, so what it checks is part of the
type.
-/

namespace Lionagi.LionCore

abbrev PluginId := ℕ
abbrev ActorId := ℕ
abbrev ResourceId := ℕ
abbrev CapId := ℕ
abbrev WorkflowId := ℕ
abbrev MsgId := ℕ
abbrev ThreadId := ℕ
abbrev Time := ℕ
abbrev Size := ℕ
abbrev MemAddr := ℕ

/-- `checked_add` on `u64`. -/
def checkedAdd (a b : ℕ) : Option ℕ := if a + b < 2 ^ 64 then some (a + b) else none

/-- `saturating_add` on `u64`. -/
def saturatingAdd (a b : ℕ) : ℕ := min (a + b) (2 ^ 64 - 1)

/-! ## Security levels -/

inductive SecurityLevel where
  | publicLevel
  | internal
  | confidential
  | secret
  deriving DecidableEq, Repr

namespace SecurityLevel

def toU8 : SecurityLevel → ℕ
  | .publicLevel => 0
  | .internal => 1
  | .confidential => 2
  | .secret => 3

instance : LE SecurityLevel := ⟨fun a b ↦ a.toU8 ≤ b.toU8⟩

instance : DecidableLE SecurityLevel := fun a b ↦ inferInstanceAs (Decidable (a.toU8 ≤ b.toU8))

end SecurityLevel

/-! ## Rights -/

inductive Right where
  | read
  | write
  | execute
  | create
  | delete
  | send
  | receive
  | delegate
  | revoke
  | declassify
  deriving DecidableEq, Repr

namespace Right

def toU8 : Right → ℕ
  | .read => 0
  | .write => 1
  | .execute => 2
  | .create => 3
  | .delete => 4
  | .send => 5
  | .receive => 6
  | .delegate => 7
  | .revoke => 8
  | .declassify => 9

def fromU8 : ℕ → Option Right
  | 0 => some .read
  | 1 => some .write
  | 2 => some .execute
  | 3 => some .create
  | 4 => some .delete
  | 5 => some .send
  | 6 => some .receive
  | 7 => some .delegate
  | 8 => some .revoke
  | 9 => some .declassify
  | _ => none

def asMask (right : Right) : BitVec 16 := 1#16 <<< right.toU8

theorem toU8_of_fromU8 {n : ℕ} {right : Right} (h : fromU8 n = some right) : right.toU8 = n := by
  unfold fromU8 at h
  split at h <;> cases h <;> rfl

theorem fromU8_isSome {n : ℕ} (h : n < 10) : ∃ right, fromU8 n = some right := by
  interval_cases n <;> exact ⟨_, rfl⟩

end Right

/-- The mask of the ten bits in use. -/
def allRightsMask : BitVec 16 := 0x03FF#16

/-- A bitset of rights: no bit outside the mask is set. -/
structure Rights where
  bits : BitVec 16
  masked : bits &&& ~~~allRightsMask = 0#16
  deriving DecidableEq

namespace Rights

def singleton (right : Right) : Rights where
  bits := right.asMask
  masked := by cases right <;> rfl

def isEmpty (rights : Rights) : Bool := rights.bits == 0#16

def contains (rights : Rights) (right : Right) : Bool := rights.bits &&& right.asMask != 0#16

def isSubsetOf (rights other : Rights) : Bool := rights.bits &&& ~~~other.bits == 0#16

/-- Intersection. -/
def combine (rights other : Rights) : Rights where
  bits := rights.bits &&& other.bits
  masked := by
    rw [BitVec.and_assoc, BitVec.and_comm other.bits, ← BitVec.and_assoc, rights.masked]
    simp

variable (rights : Rights)

theorem contains_eq_getLsbD (right : Right) :
    rights.contains right = rights.bits.getLsbD right.toU8 := by
  have hmask : right.asMask = BitVec.twoPow 16 right.toU8 := rfl
  have hne : right.asMask ≠ 0#16 := by cases right <;> decide
  unfold contains
  rw [hmask, BitVec.and_twoPow, ← hmask]
  split
  · next h => simp [h, hne]
  · next h => simp [h]

theorem getLsbD_of_ten_le {i : ℕ} (h : 10 ≤ i) : rights.bits.getLsbD i = false := by
  by_cases hi : i < 16
  · have hbit := congrArg (·.getLsbD i) rights.masked
    have hmask : (~~~allRightsMask).getLsbD i = true := by interval_cases i <;> rfl
    simpa [hmask] using hbit
  · exact BitVec.getLsbD_of_ge _ _ (not_lt.1 hi)

theorem isSubsetOf_iff (other : Rights) :
    rights.isSubsetOf other = true ↔ ∀ right, rights.contains right → other.contains right := by
  simp only [isSubsetOf, beq_iff_eq, contains_eq_getLsbD]
  constructor
  · intro h right hright
    have hbit := congrArg (·.getLsbD right.toU8) h
    have hlt : right.toU8 < 16 := by cases right <;> decide
    simpa [hright, hlt] using hbit
  · intro h
    apply BitVec.eq_of_getLsbD_eq
    intro i hi
    by_cases hten : i < 10
    · obtain ⟨right, hright⟩ := Right.fromU8_isSome hten
      have hbit := h right
      rw [Right.toU8_of_fromU8 hright] at hbit
      simpa [hi] using hbit
    · simp [rights.getLsbD_of_ten_le (not_lt.1 hten)]

end Rights

/-! ## Capabilities -/

/-- A secret key. -/
structure Key where
  bytes : Vector UInt8 32
  deriving DecidableEq

/-- The opaque seal of a capability. -/
structure SealedTag where
  bytes : Vector UInt8 32
  deriving DecidableEq

def Key.empty : Key := ⟨Vector.replicate 32 0⟩

def SealedTag.empty : SealedTag := ⟨Vector.replicate 32 0⟩

/-- The data that is sealed. -/
structure CapPayload where
  holder : PluginId
  target : ResourceId
  rights : Rights
  parent : Option CapId
  epoch : ℕ
  deriving DecidableEq

inductive CapabilityError where
  | invalidHolder
  | emptyRights
  | invalidSignature
  | revoked
  | sealVerificationFailed
  deriving DecidableEq, Repr

/-- A sealed capability; `valid` is the runtime revocation flag. -/
structure Capability where
  id : CapId
  holder : PluginId
  target : ResourceId
  rights : Rights
  parent : Option CapId
  epoch : ℕ
  valid : Bool
  signature : SealedTag
  holder_ne_zero : holder ≠ 0
  rights_nonempty : rights.isEmpty = false
  deriving DecidableEq

namespace Capability

def new (id : CapId) (holder : PluginId) (target : ResourceId) (rights : Rights)
    (parent : Option CapId) (epoch : ℕ) (signature : SealedTag) : Except CapabilityError Capability :=
  if hholder : holder = 0 then .error .invalidHolder
  else if hrights : rights.isEmpty then .error .emptyRights
  else .ok
    { id, holder, target, rights, parent, epoch, valid := true, signature,
      holder_ne_zero := hholder, rights_nonempty := Bool.eq_false_iff.2 hrights }

def isValid (cap : Capability) : Bool := cap.valid

def revoke (cap : Capability) : Capability := { cap with valid := false }

variable (cap : Capability)

@[simp] theorem revoke_id : cap.revoke.id = cap.id := rfl

@[simp] theorem revoke_parent : cap.revoke.parent = cap.parent := rfl

@[simp] theorem revoke_target : cap.revoke.target = cap.target := rfl

@[simp] theorem isValid_revoke : cap.revoke.isValid = false := rfl

@[simp] theorem revoke_revoke : cap.revoke.revoke = cap.revoke := rfl

end Capability

/-! ## Policies -/

inductive PolicyDecision where
  | permit
  | deny
  | indeterminate
  deriving DecidableEq, Repr

namespace PolicyDecision

def isPermit : PolicyDecision → Bool
  | .permit => true
  | .deny => false
  | .indeterminate => false

end PolicyDecision

inductive PolicyError where
  | invalidAction (message : String)
  | evaluationFailed (message : String)
  deriving DecidableEq

/-- An action to be authorised. -/
structure Action where
  subject : PluginId
  target : ResourceId
  rights : Rights
  kind : String
  deriving DecidableEq

def Action.new (subject : PluginId) (target : ResourceId) (rights : Rights) (kind : String) :
    Except PolicyError Action :=
  if kind = "" then .error (.invalidAction "kind cannot be empty")
  else .ok { subject, target, rights, kind }

structure PolicyContext where
  now : Time
  callOrigin : Option PluginId
  deriving DecidableEq

inductive PolicyDecisionFn where
  | denyAll
  | permitAll
  | custom (decision : PolicyDecision)
  deriving DecidableEq

def PolicyDecisionFn.eval : PolicyDecisionFn → Action → PolicyContext → PolicyDecision
  | .denyAll, _, _ => .deny
  | .permitAll, _, _ => .permit
  | .custom decision, _, _ => decision

structure PolicyState where
  decide : PolicyDecisionFn
  deriving DecidableEq

namespace PolicyState

def denyAll : PolicyState := ⟨.denyAll⟩

def permitAll : PolicyState := ⟨.permitAll⟩

def eval (policy : PolicyState) (action : Action) (ctx : PolicyContext) : PolicyDecision :=
  policy.decide.eval action ctx

/-- No decision pattern looks at the action or at the context. -/
theorem eval_eq_eval (policy : PolicyState) (action action' : Action) (ctx ctx' : PolicyContext) :
    policy.eval action ctx = policy.eval action' ctx' := by
  obtain ⟨pattern⟩ := policy
  cases pattern <;> rfl

end PolicyState

end Lionagi.LionCore
