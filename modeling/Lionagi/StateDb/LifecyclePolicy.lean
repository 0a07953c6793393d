import Mathlib.Data.Rat.Defs
import Lionagi.Library.Checks
import Lionagi.Library.OrderedDict

/-!
# Lifecycle policies

A policy declares the statuses of one entity type, the edges between them and the columns a command
may patch. A registry accepts a policy after checking that it is consistent, and one policy for each
entity type and table.
-/

namespace Lionagi.StateDb

open Checks OrderedDict

/-- A stored value other than NULL. -/
inductive Scalar where
  | num (value : ℚ)
  | text (value : String)
  deriving DecidableEq

/-- The value of a column, NULL being `none`. -/
abbrev Cell := Option Scalar

namespace Cell

def num (value : ℚ) : Cell := some (.num value)

def text (value : String) : Cell := some (.text value)

/-- The truth value of a value read from the database. -/
def truthy : Cell → Bool
  | none => false
  | some (.num value) => value ≠ 0
  | some (.text value) => value ≠ ""

@[simp]
theorem text_inj {a b : String} : text a = text b ↔ a = b := by
  simp only [text, Option.some.injEq, Scalar.text.injEq]

@[simp]
theorem text_ne_none (a : String) : text a ≠ none := Option.some_ne_none _

end Cell

/-! ## Commands -/

structure ActorRecord where
  type : String
  id : Option String
  deriving DecidableEq

/-- The evidence and the metadata are the JSON texts that are stored. -/
structure ReasonRecord where
  code : String
  summary : String := ""
  evidenceRefs : String := "[]"
  metadata : String := "\x7b\x7d"
  deriving DecidableEq

structure OverrideRecord where
  actor : String
  justification : String
  deriving DecidableEq

structure InitialStateCommand where
  entityType : String
  entityId : String
  status : String
  reason : ReasonRecord
  actor : ActorRecord

structure TransitionCommand where
  entityType : String
  entityId : String
  toStatus : String
  reason : ReasonRecord
  actor : ActorRecord
  expectedStatuses : Option (List Cell) := none
  expectedVersion : Option ℚ := none
  patch : OrderedDict String Cell := .empty
  override : Option OverrideRecord := none

inductive TransitionResultKind where
  | applied
  | conflict
  | rejected
  deriving DecidableEq

structure TransitionOutcome where
  result : TransitionResultKind
  previousStatus : Cell
  currentStatus : Cell
  transitionId : Option ℕ
  deriving DecidableEq

/-! ## Policies -/

structure EdgePolicy where
  toStatus : String
  actorTypes : Option (List String) := none
  requiredPatchFields : List String := []
  requiredGuardFields : List String := []
  deriving DecidableEq

inductive SameStatusRule where
  | append
  | noop
  | reject
  deriving DecidableEq

structure LifecyclePolicy where
  entityType : String
  table : String
  statuses : List String
  initialStatuses : List String
  terminalStatuses : List String
  edges : OrderedDict String (List EdgePolicy)
  sameStatus : SameStatusRule
  patchFields : List String
  reasonPrefixes : List String
  reasonColumns : Bool := true

/-- The members of one set that are not in the other. -/
def outside (fields allowed : List String) : List String := fields.filter (· ∉ allowed)

@[simp]
theorem outside_eq_nil_iff {fields allowed : List String} :
    outside fields allowed = [] ↔ ∀ field ∈ fields, field ∈ allowed := by
  rw [outside, List.filter_eq_nil_iff]
  apply forall₂_congr
  intro field _
  simp only [decide_eq_true_eq, not_not]

inductive RegistryError where
  | sealed (entityType : String)
  | entityTypeRegistered (entityType : String)
  | tableRegistered (table : String) (entityType : Option String)
  | initialOutsideStatuses (entityType : String) (unknown : List String)
  | terminalOutsideStatuses (entityType : String) (unknown : List String)
  | edgesFromUnknown (entityType fromStatus : String)
  | edgeToUnknown (entityType fromStatus toStatus : String)
  | patchOutsideAllowlist (entityType fromStatus toStatus : String) (unknown : List String)
  | guardOutsideAllowlist (entityType fromStatus toStatus : String) (unknown : List String)
  deriving DecidableEq

namespace LifecyclePolicy

variable (policy : LifecyclePolicy)

def checkEdge (fromStatus : String) (edge : EdgePolicy) : Except RegistryError Unit := do
  ensure (edge.toStatus ∈ policy.statuses)
    (.edgeToUnknown policy.entityType fromStatus edge.toStatus)
  let unknownPatch := outside edge.requiredPatchFields policy.patchFields
  ensure (unknownPatch = [])
    (.patchOutsideAllowlist policy.entityType fromStatus edge.toStatus unknownPatch)
  let unknownGuard := outside edge.requiredGuardFields policy.patchFields
  ensure (unknownGuard = [])
    (.guardOutsideAllowlist policy.entityType fromStatus edge.toStatus unknownGuard)

/-- The part of `register` that looks at the policy alone. -/
def check : Except RegistryError Unit := do
  let unknownInitial := outside policy.initialStatuses policy.statuses
  ensure (unknownInitial = []) (.initialOutsideStatuses policy.entityType unknownInitial)
  let unknownTerminal := outside policy.terminalStatuses policy.statuses
  ensure (unknownTerminal = []) (.terminalOutsideStatuses policy.entityType unknownTerminal)
  forEach (fun entry : String × List EdgePolicy ↦ do
    ensure (entry.1 ∈ policy.statuses) (.edgesFromUnknown policy.entityType entry.1)
    forEach (policy.checkEdge entry.1) entry.2) policy.edges.entries

/-- The declared edges from a status, of which an unset status has none. -/
def edgesFrom : Cell → List EdgePolicy
  | some (.text status) => (policy.edges.get? status).getD []
  | _ => []

def isTerminal (status : Cell) : Prop := ∃ terminal ∈ policy.terminalStatuses, status = Cell.text terminal

instance (status : Cell) : Decidable (policy.isTerminal status) :=
  inferInstanceAs (Decidable (∃ terminal ∈ policy.terminalStatuses, status = Cell.text terminal))

/-- What the registry checks of a policy. -/
structure WellFormed : Prop where
  initial : ∀ status ∈ policy.initialStatuses, status ∈ policy.statuses
  terminal : ∀ status ∈ policy.terminalStatuses, status ∈ policy.statuses
  fromStatus : ∀ entry ∈ policy.edges.entries, entry.1 ∈ policy.statuses
  toStatus : ∀ entry ∈ policy.edges.entries, ∀ edge ∈ entry.2, edge.toStatus ∈ policy.statuses
  patch : ∀ entry ∈ policy.edges.entries, ∀ edge ∈ entry.2, ∀ field ∈ edge.requiredPatchFields,
    field ∈ policy.patchFields
  guard : ∀ entry ∈ policy.edges.entries, ∀ edge ∈ entry.2, ∀ field ∈ edge.requiredGuardFields,
    field ∈ policy.patchFields

variable {policy}

theorem checkEdge_eq_ok_iff {fromStatus : String} {edge : EdgePolicy} :
    policy.checkEdge fromStatus edge = .ok () ↔ edge.toStatus ∈ policy.statuses ∧
      (∀ field ∈ edge.requiredPatchFields, field ∈ policy.patchFields) ∧
      ∀ field ∈ edge.requiredGuardFields, field ∈ policy.patchFields := by
  simp only [checkEdge, then_eq_ok_iff, ensure_eq_ok_iff, outside_eq_nil_iff]

theorem check_eq_ok_iff : policy.check = .ok () ↔ policy.WellFormed := by
  simp only [check, then_eq_ok_iff, ensure_eq_ok_iff, outside_eq_nil_iff, forEach_eq_ok_iff,
    checkEdge_eq_ok_iff]
  constructor
  · intro h
    obtain ⟨hinitial, hterminal, hedges⟩ := h
    exact {
      initial := hinitial
      terminal := hterminal
      fromStatus := fun entry hentry ↦ (hedges entry hentry).1
      toStatus := fun entry hentry edge hedge ↦ ((hedges entry hentry).2 edge hedge).1
      patch := fun entry hentry edge hedge ↦ ((hedges entry hentry).2 edge hedge).2.1
      guard := fun entry hentry edge hedge ↦ ((hedges entry hentry).2 edge hedge).2.2 }
  · intro h
    exact ⟨h.initial, h.terminal, fun entry hentry ↦ ⟨h.fromStatus entry hentry, fun edge hedge ↦
      ⟨h.toStatus entry hentry edge hedge, h.patch entry hentry edge hedge,
        h.guard entry hentry edge hedge⟩⟩⟩

end LifecyclePolicy

/-! ## The registry -/

/-- Every registered policy is consistent, and its entity type and its table lead to each other. -/
structure PolicyRegistry where
  byEntityType : OrderedDict String LifecyclePolicy
  byTable : OrderedDict String String
  sealed : Bool
  registered : ∀ entityType policy, byEntityType.get? entityType = some policy →
    policy.entityType = entityType ∧ byTable.get? policy.table = some entityType ∧ policy.WellFormed

namespace PolicyRegistry

def empty : PolicyRegistry where
  byEntityType := .empty
  byTable := .empty
  sealed := false
  registered _ _ h := absurd h (Option.some_ne_none _).symm

def checkRegister (registry : PolicyRegistry) (policy : LifecyclePolicy) :
    Except RegistryError Unit := do
  ensure (registry.sealed = false) (.sealed policy.entityType)
  ensure (policy.entityType ∉ registry.byEntityType) (.entityTypeRegistered policy.entityType)
  ensure (policy.table ∉ registry.byTable)
    (.tableRegistered policy.table (registry.byTable.get? policy.table))
  policy.check

variable {registry : PolicyRegistry} {policy : LifecyclePolicy}

theorem checkRegister_eq_ok_iff :
    registry.checkRegister policy = .ok () ↔ registry.sealed = false ∧
      policy.entityType ∉ registry.byEntityType ∧ policy.table ∉ registry.byTable ∧
      policy.WellFormed := by
  simp only [checkRegister, then_eq_ok_iff, ensure_eq_ok_iff, LifecyclePolicy.check_eq_ok_iff]

theorem registered_set (h : registry.checkRegister policy = .ok ()) (entityType : String) (other : LifecyclePolicy)
    (hother : (registry.byEntityType.set policy.entityType policy).get? entityType = some other) :
    other.entityType = entityType ∧
      (registry.byTable.set policy.table policy.entityType).get? other.table = some entityType ∧
      other.WellFormed := by
  obtain ⟨-, -, htable, hwell⟩ := checkRegister_eq_ok_iff.1 h
  rw [get?_set] at hother
  split at hother
  · next heq =>
    cases hother
    exact ⟨heq.symm, (get?_set ..).trans ((if_pos rfl).trans (congrArg some heq.symm)), hwell⟩
  · next hne =>
    obtain ⟨htype, hold, hothers⟩ := registry.registered entityType other hother
    have hne : other.table ≠ policy.table := fun heq ↦ htable (heq ▸ mem_of_get? hold)
    exact ⟨htype, (get?_set_of_ne _ hne _).trans hold, hothers⟩

def register (registry : PolicyRegistry) (policy : LifecyclePolicy) :
    Except RegistryError PolicyRegistry :=
  match h : registry.checkRegister policy with
  | .error e => .error e
  | .ok () => .ok {
      byEntityType := registry.byEntityType.set policy.entityType policy
      byTable := registry.byTable.set policy.table policy.entityType
      sealed := registry.sealed
      registered := registered_set h }

/-- Two registered policies with one table are one policy. -/
theorem eq_of_table (registry : PolicyRegistry) {t t' : String} {policy' : LifecyclePolicy}
    (h : registry.byEntityType.get? t = some policy) (h' : registry.byEntityType.get? t' = some policy')
    (htable : policy.table = policy'.table) : t = t' := by
  obtain ⟨-, hentry, -⟩ := registry.registered t policy h
  obtain ⟨-, hentry', -⟩ := registry.registered t' policy' h'
  exact Option.some.inj (hentry.symm.trans (htable ▸ hentry'))

end PolicyRegistry

end Lionagi.StateDb
