import Mathlib.Data.Set.Defs
import Lionagi.LionCore.Authorization
import Lionagi.LionCore.Ghost

/-!
# The address that authorization looks up

A target is a resource identifier of 128 bits, and the liveness and the owner of a resource are kept
under an address of 64 bits. The checks look up the low bits of the target. They speak of the resource
that was named exactly when the target is an address.
-/

namespace Lionagi.LionCore

theorem truncate_eq_self {target : ResourceId} (h : target < 2 ^ 64) : truncate target = target :=
  Nat.mod_eq_of_lt h

/-- The address that equals the target, as a number, is live, and a subject that writes dominates the
owner of that address. -/
structure NamesAddress (state : State) (action : Action) : Prop where
  address : action.target < 2 ^ 64
  live : state.ghost.isLive action.target = true
  dominates : action.rights.contains .write = true →
    resourceIntegrity state action.target ≤ (state.pluginLevel action.subject).getD .publicLevel

theorem bibaWriteOk_iff {state : State} {action : Action} : bibaWriteOk state action = true ↔
    (action.rights.contains .write = true → resourceIntegrity state (truncate action.target) ≤
      (state.pluginLevel action.subject).getD .publicLevel) := by
  unfold bibaWriteOk
  cases hwrite : action.rights.contains .write with
  | false => simp
  | true => simp

variable (state : State)

/-- One validation speaks of the resource that its action names if and only if the named target of a
validation that succeeds is an address. -/
theorem validateAtomic_namesAddress_iff (cap : Capability) (action : Action) (ctx : PolicyContext) :
    ((∃ auth, Authorized.validateAtomic state cap action ctx = .ok auth) → NamesAddress state action) ↔
      (Passes state cap action ctx → action.target < 2 ^ 64) := by
  rw [validateAtomic_isOk_iff]
  constructor
  · intro h hpasses
    exact (h hpasses).address
  · intro h hpasses
    have haddress : action.target < 2 ^ 64 := h hpasses
    have hsame : truncate action.target = action.target := truncate_eq_self haddress
    have hlive := hpasses.live
    have hbiba := bibaWriteOk_iff.1 hpasses.biba
    rw [hsame] at hlive hbiba
    exact ⟨haddress, hlive, hbiba⟩

/-! ## Verdicts of two targets -/

def Action.onTarget (action : Action) (target : ResourceId) : Action := { action with target }

/-- The liveness check and the integrity check can each tell the two targets apart. -/
structure VerdictsDiffer (t u : ResourceId) : Prop where
  liveness : ∃ (state : State) (action : Action),
    (checkLiveness state (action.onTarget t)).isOk ≠ (checkLiveness state (action.onTarget u)).isOk
  integrity : ∃ (state : State) (action : Action),
    (checkBiba state (action.onTarget t)).isOk ≠ (checkBiba state (action.onTarget u)).isOk

/-- Plugin 1, which is public, has a capability for the target; the low bits of the target are the
address of a resource of plugin 2, which is secret. -/
def secretOwned (target : ResourceId) : State :=
  { State.empty with
    kernel := { KernelState.initial Key.empty PolicyState.permitAll with
      revocation :=
        { caps := [(5, { RevocationState.readCap 5 none with target })], epoch := 0, childrenIndex := [] } }
    plugins := [(1, (PluginState.empty .publicLevel 0).grantCapMut 5), (2, PluginState.empty .secret 0)]
    ghost := MetaState.empty.alloc (truncate target) 2 }

def reading (target : ResourceId) : Action :=
  { subject := 1, target, rights := Rights.singleton .read, kind := "read" }

def writing (target : ResourceId) : Action :=
  { subject := 1, target, rights := Rights.singleton .write, kind := "write" }

variable (target : ResourceId)

theorem getStatus_secretOwned (addr : MemAddr) :
    (secretOwned target).ghost.getStatus addr = if addr = truncate target then some (.allocated 2) else none :=
  MetaState.getStatus_alloc MetaState.ordered_empty (truncate target) 2 addr

theorem isLive_secretOwned (addr : MemAddr) :
    (secretOwned target).ghost.isLive addr = true ↔ addr = truncate target := by
  rw [MetaState.isLive, getStatus_secretOwned]
  split_ifs with h
  · exact iff_of_true rfl h
  · exact iff_of_false (by decide) h

theorem resourceIntegrity_secretOwned (addr : MemAddr) :
    resourceIntegrity (secretOwned target) addr = if addr = truncate target then .secret else .publicLevel := by
  rw [resourceIntegrity, getStatus_secretOwned]
  split_ifs with h
  · rfl
  · rfl

theorem passes_secretOwned :
    Passes (secretOwned target) { RevocationState.readCap 5 none with target } (reading target) ⟨0, none⟩ where
  holder := rfl
  target := rfl
  rights := (by decide : (Rights.singleton .read).isSubsetOf (Rights.singleton .read) = true)
  held := rfl
  policy := rfl
  valid := rfl
  parent := fun _ hparent ↦ absurd hparent (by simp [RevocationState.readCap])
  live := (isLive_secretOwned target _).2 rfl
  biba := bibaWriteOk_iff.2 fun h ↦ absurd h (by decide : ¬ (Rights.singleton .read).contains .write = true)

theorem checkLiveness_isOk (action : Action) :
    (checkLiveness state action).isOk = state.ghost.isLive (truncate action.target) := by
  unfold checkLiveness
  cases state.ghost.isLive (truncate action.target) <;> rfl

theorem checkBiba_isOk (action : Action) : (checkBiba state action).isOk = bibaWriteOk state action := by
  unfold checkBiba
  cases bibaWriteOk state action <;> rfl

/-- Two targets share their verdicts exactly when they share their low bits. -/
theorem verdictsDiffer_iff {t u : ResourceId} : VerdictsDiffer t u ↔ truncate t ≠ truncate u := by
  constructor
  · intro h hsame
    obtain ⟨state, action, hliveness⟩ := h.liveness
    apply hliveness
    calc
      (checkLiveness state (action.onTarget t)).isOk = state.ghost.isLive (truncate t) :=
        checkLiveness_isOk _ _
      _ = state.ghost.isLive (truncate u) := by rw [hsame]
      _ = (checkLiveness state (action.onTarget u)).isOk := by rw [checkLiveness_isOk]; rfl
  · intro hne
    refine ⟨⟨secretOwned t, reading t, ?_⟩, ⟨secretOwned t, writing t, ?_⟩⟩
    · have hown : (secretOwned t).ghost.isLive (truncate t) = true := (isLive_secretOwned t _).2 rfl
      have hother : (secretOwned t).ghost.isLive (truncate u) = false :=
        Bool.eq_false_iff.2 fun h ↦ hne ((isLive_secretOwned t _).1 h).symm
      rw [checkLiveness_isOk, checkLiveness_isOk]
      exact fun h ↦ absurd (hown.symm.trans (h.trans hother)) (by decide)
    · have hown : bibaWriteOk (secretOwned t) ((writing t).onTarget t) = false := by
        rw [← Bool.not_eq_true, bibaWriteOk_iff]
        intro h
        have hlevel : resourceIntegrity (secretOwned t) (truncate t) ≤ .publicLevel :=
          h (by decide : (Rights.singleton .write).contains .write = true)
        rw [resourceIntegrity_secretOwned, if_pos rfl] at hlevel
        exact absurd hlevel (by decide)
      have hother : bibaWriteOk (secretOwned t) ((writing t).onTarget u) = true := by
        rw [bibaWriteOk_iff]
        intro _
        change resourceIntegrity (secretOwned t) (truncate u) ≤ .publicLevel
        rw [resourceIntegrity_secretOwned, if_neg (Ne.symm hne)]
        exact (by decide : SecurityLevel.publicLevel ≤ SecurityLevel.publicLevel)
      rw [checkBiba_isOk, checkBiba_isOk, hown, hother]
      decide

/-! ## A set of targets -/

/-- Authorization checks the resources that these targets name: each validation that succeeds speaks of
the named resource, and no two of them share a verdict. -/
structure ChecksNamed (targets : Set ResourceId) : Prop where
  names : ∀ (state : State) (cap : Capability) (action : Action) (ctx : PolicyContext),
    action.target ∈ targets → (∃ auth, Authorized.validateAtomic state cap action ctx = .ok auth) →
      NamesAddress state action
  distinct : ∀ t ∈ targets, ∀ u ∈ targets, t ≠ u → VerdictsDiffer t u

/-- Authorization checks the named resources for exactly the sets of targets that are addresses. -/
theorem checksNamed_iff (targets : Set ResourceId) :
    ChecksNamed targets ↔ ∀ t ∈ targets, t < 2 ^ 64 := by
  constructor
  · intro h t ht
    have hok := validateAtomic_isOk_iff.2 (passes_secretOwned t)
    exact (h.names _ _ _ _ ht hok).address
  · intro h
    refine ⟨fun state cap action ctx htarget ↦ ?_, fun t ht u hu hne ↦ ?_⟩
    · exact (validateAtomic_namesAddress_iff state cap action ctx).2 fun _ ↦ h _ htarget
    · rw [verdictsDiffer_iff, truncate_eq_self (h t ht), truncate_eq_self (h u hu)]
      exact hne

/-- The target 2 ^ 64 + 7 is authorised when the resource at the address 7 is live. -/
theorem not_checksNamed : ¬ ChecksNamed { t | t < 2 ^ 128 } := by
  intro h
  have hok := validateAtomic_isOk_iff.2 (passes_secretOwned (2 ^ 64 + 7))
  have haddress := (h.names _ _ _ _ (by decide) hok).address
  exact absurd haddress (by decide)

end Lionagi.LionCore
