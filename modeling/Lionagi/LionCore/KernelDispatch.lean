import Lionagi.LionCore.RevocationInvariant

/-!
# The kernel dispatch function

Every mutation of the kernel state core is a request. What the dispatch keeps in every run is that its
tables are sorted and that the children index is exact. That parents are smaller than their children,
and that a valid capability has a valid parent, is only documented: the dispatch takes a delegated
capability as it comes. Both hold throughout a run exactly when every delegation that is carried out
already satisfied them.
-/

namespace Lionagi.LionCore

open SortedTable ParentForest

/-- The key in use, and the previous one for a grace period. -/
structure KeyState where
  current : Key
  epoch : ℕ
  previous : Option Key
  previousEpoch : Option ℕ
  deriving DecidableEq

namespace KeyState

def initial (key : Key) : KeyState :=
  { current := key, epoch := 0, previous := none, previousEpoch := none }

/-- `none` is the panic on an overflow of the epoch. -/
def rotate (keyState : KeyState) (newKey : Key) : Option KeyState :=
  (checkedAdd keyState.epoch 1).map fun epoch ↦
    { current := newKey, epoch, previous := some keyState.current, previousEpoch := some keyState.epoch }

end KeyState

/-! ## Metadata -/

structure PluginMeta where
  level : SecurityLevel
  heldCaps : List CapId
  deriving DecidableEq

namespace PluginMeta

def empty : PluginMeta := { level := .publicLevel, heldCaps := [] }

def grantCap (pluginMeta : PluginMeta) (capId : CapId) : PluginMeta :=
  match binarySearchByKey id capId pluginMeta.heldCaps with
  | .ok _ => pluginMeta
  | .error pos => { pluginMeta with heldCaps := pluginMeta.heldCaps.insertIdx pos capId }

end PluginMeta

structure ResourceMeta where
  level : SecurityLevel
  deriving DecidableEq

def ResourceMeta.empty : ResourceMeta := { level := .publicLevel }

structure KernelStateCore where
  keyState : KeyState
  revocation : RevocationState
  pluginMetas : List (PluginId × PluginMeta)
  resourceMetas : List (ResourceId × ResourceMeta)
  now : Time
  nextCapId : CapId
  deriving DecidableEq

namespace KernelStateCore

def empty (hmacKey : Key) : KernelStateCore :=
  { keyState := KeyState.initial hmacKey, revocation := RevocationState.empty, pluginMetas := []
    resourceMetas := [], now := 0, nextCapId := 0 }

def getPluginMeta (core : KernelStateCore) (pid : PluginId) : PluginMeta :=
  ((lookup Prod.fst pid core.pluginMetas).map Prod.snd).getD PluginMeta.empty

def setPluginMeta (core : KernelStateCore) (pid : PluginId) (pluginMeta : PluginMeta) :
    KernelStateCore :=
  let pluginMeta := { pluginMeta with heldCaps := sortDedup pluginMeta.heldCaps }
  match binarySearchByKey Prod.fst pid core.pluginMetas with
  | .ok idx =>
    { core with pluginMetas := core.pluginMetas.modify idx fun entry ↦ (entry.1, pluginMeta) }
  | .error pos => { core with pluginMetas := core.pluginMetas.insertIdx pos (pid, pluginMeta) }

def getResourceMeta (core : KernelStateCore) (rid : ResourceId) : ResourceMeta :=
  ((lookup Prod.fst rid core.resourceMetas).map Prod.snd).getD ResourceMeta.empty

def setResourceMeta (core : KernelStateCore) (rid : ResourceId) (resourceMeta : ResourceMeta) :
    KernelStateCore :=
  match binarySearchByKey Prod.fst rid core.resourceMetas with
  | .ok idx =>
    { core with resourceMetas := core.resourceMetas.modify idx fun entry ↦ (entry.1, resourceMeta) }
  | .error pos => { core with resourceMetas := core.resourceMetas.insertIdx pos (rid, resourceMeta) }

end KernelStateCore

/-! ## Requests -/

inductive KernelRequest where
  | capDelegate (newCap : Capability) (target : PluginId)
  | capRevoke (capId : CapId)
  | setPluginLevel (pluginId : PluginId) (level : SecurityLevel)
  | setResourceLevel (resourceId : ResourceId) (level : SecurityLevel)
  | tick
  | rotateKey (newKey : Key)

/-- A request is refused with an error, or the process panics. -/
inductive DispatchStop where
  | error (e : KernelError)
  | panic

def dispatchCapDelegate (core : KernelStateCore) (newCap : Capability) (target : PluginId) :
    Except DispatchStop KernelStateCore :=
  if core.revocation.contains newCap.id then .error (.error (.capIdCollision newCap.id))
  else
    let capId := newCap.id
    match core.revocation.insertMut newCap with
    | (.error e, _) => .error (.error e)
    | (.ok (), revocation) =>
      let core := { core with revocation }
      .ok (core.setPluginMeta target ((core.getPluginMeta target).grantCap capId))

def dispatchCapRevoke (core : KernelStateCore) (capId : CapId) :
    Except DispatchStop KernelStateCore :=
  match core.revocation.revokeTransitiveFastMut capId with
  | (.error e, _) => .error (.error e)
  | (.ok (), revocation) => .ok { core with revocation }

def dispatchSetPluginLevel (core : KernelStateCore) (pluginId : PluginId) (level : SecurityLevel) :
    Except DispatchStop KernelStateCore :=
  .ok (core.setPluginMeta pluginId { core.getPluginMeta pluginId with level })

def dispatchSetResourceLevel (core : KernelStateCore) (resourceId : ResourceId)
    (level : SecurityLevel) : Except DispatchStop KernelStateCore :=
  .ok (core.setResourceMeta resourceId { core.getResourceMeta resourceId with level })

def dispatchTick (core : KernelStateCore) : Except DispatchStop KernelStateCore :=
  match checkedAdd core.now 1 with
  | some now => .ok { core with now }
  | none => .error (.error (.counterOverflow "time"))

def dispatchRotateKey (core : KernelStateCore) (newKey : Key) : Except DispatchStop KernelStateCore :=
  match core.keyState.rotate newKey with
  | some keyState => .ok { core with keyState }
  | none => .error .panic

def kernelDispatch (core : KernelStateCore) : KernelRequest → Except DispatchStop KernelStateCore
  | .capDelegate newCap target => dispatchCapDelegate core newCap target
  | .capRevoke capId => dispatchCapRevoke core capId
  | .setPluginLevel pluginId level => dispatchSetPluginLevel core pluginId level
  | .setResourceLevel resourceId level => dispatchSetResourceLevel core resourceId level
  | .tick => dispatchTick core
  | .rotateKey newKey => dispatchRotateKey core newKey

/-- The core after a sequence of requests; a refused request leaves it as it was. -/
def dispatchAll (core : KernelStateCore) (requests : List KernelRequest) : KernelStateCore :=
  requests.foldl (fun core request ↦
    match kernelDispatch core request with
    | .ok core' => core'
    | .error _ => core) core

/-! ## What the dispatch keeps by itself -/

namespace KernelStateCore

variable {core core' : KernelStateCore}

structure WellFormed (core : KernelStateCore) : Prop where
  indexed : core.revocation.Indexed
  pluginMetas_sorted : Sorted Prod.fst core.pluginMetas
  resourceMetas_sorted : Sorted Prod.fst core.resourceMetas
  heldCaps_sorted : ∀ entry ∈ core.pluginMetas, Sorted id entry.2.heldCaps

/-- A valid capability with a parent has that parent present and valid. -/
def ValidParentPresent (rs : RevocationState) : Prop :=
  ∀ k cap p, rs.get k = some cap → cap.isValid = true → cap.parent = some p → rs.isValid p = true

/-- The invariants documented on the revocation state and on the core. -/
structure Documented (core : KernelStateCore) : Prop extends WellFormed core where
  parentLt : core.revocation.ParentLt
  validParentPresent : ValidParentPresent core.revocation

theorem documented_empty (key : Key) : (empty key).Documented where
  indexed := RevocationState.indexed_empty
  pluginMetas_sorted := sorted_nil
  resourceMetas_sorted := sorted_nil
  heldCaps_sorted := by simp [empty]
  parentLt := by
    intro k p hparent
    cases hparent
  validParentPresent := by
    intro k cap p hget
    cases hget

@[simp] theorem setPluginMeta_revocation (core : KernelStateCore) (pid : PluginId) (m : PluginMeta) :
    (core.setPluginMeta pid m).revocation = core.revocation := by
  unfold setPluginMeta
  simp only
  split <;> rfl

@[simp] theorem setResourceMeta_revocation (core : KernelStateCore) (rid : ResourceId)
    (m : ResourceMeta) : (core.setResourceMeta rid m).revocation = core.revocation := by
  unfold setResourceMeta
  split <;> rfl

theorem WellFormed.withRevocation (h : core.WellFormed) {revocation : RevocationState}
    (hindexed : revocation.Indexed) : { core with revocation }.WellFormed :=
  { h with indexed := hindexed }

/-- The metadata is normalised on the way in, whatever was passed. -/
theorem WellFormed.setPluginMeta (h : core.WellFormed) (pid : PluginId) (m : PluginMeta) :
    (core.setPluginMeta pid m).WellFormed := by
  have hheld := sorted_sortDedup m.heldCaps
  unfold KernelStateCore.setPluginMeta
  simp only
  split
  · next idx hsearch =>
    refine { h with pluginMetas_sorted := ?_, heldCaps_sorted := ?_ }
    · simp only [modify_eq_map h.pluginMetas_sorted _ hsearch]
      apply h.pluginMetas_sorted.map
      intro entry
      split <;> rfl
    · simp only [modify_eq_map h.pluginMetas_sorted _ hsearch, List.mem_map]
      rintro _ ⟨entry, hentry, rfl⟩
      split
      · exact hheld
      · exact h.heldCaps_sorted entry hentry
  · next pos hsearch =>
    refine { h with pluginMetas_sorted := h.pluginMetas_sorted.insertIdx rfl hsearch, heldCaps_sorted := ?_ }
    intro entry hentry
    rcases (mem_insertIdx_of_search hsearch).1 hentry with rfl | hentry
    · exact hheld
    · exact h.heldCaps_sorted entry hentry

theorem WellFormed.setResourceMeta (h : core.WellFormed) (rid : ResourceId) (m : ResourceMeta) :
    (core.setResourceMeta rid m).WellFormed := by
  unfold KernelStateCore.setResourceMeta
  split
  · next idx hsearch =>
    refine { h with resourceMetas_sorted := ?_ }
    simp only [modify_eq_map h.resourceMetas_sorted _ hsearch]
    apply h.resourceMetas_sorted.map
    intro entry
    split <;> rfl
  · next pos hsearch =>
    exact { h with resourceMetas_sorted := h.resourceMetas_sorted.insertIdx rfl hsearch }

/-! ## One request -/

/-- What a request that is carried out does to the capability table. -/
inductive TableStep (rs : RevocationState) : KernelRequest → RevocationState → Prop
  | delegated (cap : Capability) (target : PluginId) (pos : ℕ)
      (hsearch : binarySearchByKey Prod.fst cap.id rs.caps = .error pos) :
      TableStep rs (.capDelegate cap target) (rs.inserted cap pos)
  | revoked (c : CapId) :
      TableStep rs (.capRevoke c) (rs.revokeWhere fun k ↦ decide (k ∈ rs.collectDescendants c))
  | setPluginLevel (pid : PluginId) (level : SecurityLevel) : TableStep rs (.setPluginLevel pid level) rs
  | setResourceLevel (rid : ResourceId) (level : SecurityLevel) :
      TableStep rs (.setResourceLevel rid level) rs
  | tick : TableStep rs .tick rs
  | rotateKey (key : Key) : TableStep rs (.rotateKey key) rs

variable {rs : RevocationState}

theorem contains_eq_false_iff {k : CapId} :
    rs.contains k = false ↔ ∃ pos, binarySearchByKey Prod.fst k rs.caps = .error pos := by
  rw [RevocationState.contains, Option.isSome_eq_false_iff, Option.isNone_iff_eq_none,
    RevocationState.findIndex_eq_none_iff]

variable {request : KernelRequest}

theorem WellFormed.dispatch (h : core.WellFormed) (hdispatch : kernelDispatch core request = .ok core') :
    core'.WellFormed ∧ TableStep core.revocation request core'.revocation := by
  cases request with
  | capDelegate cap target =>
    simp only [kernelDispatch, dispatchCapDelegate, RevocationState.insertMut_eq] at hdispatch
    split at hdispatch
    · cases hdispatch
    · next habsent =>
      obtain ⟨pos, hsearch⟩ := contains_eq_false_iff.1 (Bool.eq_false_iff.2 habsent)
      simp only [hsearch, Except.ok.injEq] at hdispatch
      subst hdispatch
      constructor
      · exact (h.withRevocation (h.indexed.inserted hsearch)).setPluginMeta _ _
      · rw [setPluginMeta_revocation]
        exact TableStep.delegated cap target pos hsearch
  | capRevoke c =>
    simp only [kernelDispatch, dispatchCapRevoke, h.indexed.revokeTransitiveFastMut_eq] at hdispatch
    by_cases hcontains : core.revocation.contains c = true
    · rw [if_pos hcontains, RevocationState.revokeTransitiveFast_eq] at hdispatch
      simp only [Except.ok.injEq] at hdispatch
      subst hdispatch
      exact ⟨h.withRevocation (h.indexed.revokeWhere _), TableStep.revoked c⟩
    · rw [if_neg hcontains] at hdispatch
      cases hdispatch
  | setPluginLevel pid level =>
    cases hdispatch
    refine ⟨h.setPluginMeta _ _, ?_⟩
    rw [setPluginMeta_revocation]
    exact TableStep.setPluginLevel pid level
  | setResourceLevel rid level =>
    cases hdispatch
    refine ⟨h.setResourceMeta _ _, ?_⟩
    rw [setResourceMeta_revocation]
    exact TableStep.setResourceLevel rid level
  | tick =>
    simp only [kernelDispatch, dispatchTick] at hdispatch
    split at hdispatch <;> cases hdispatch
    exact ⟨{ h with }, TableStep.tick⟩
  | rotateKey key =>
    simp only [kernelDispatch, dispatchRotateKey] at hdispatch
    split at hdispatch <;> cases hdispatch
    exact ⟨{ h with }, TableStep.rotateKey key⟩

/-- A delegation that is carried out brings a capability whose parent, if it has one, is smaller; if
the capability is valid, the parent is present and valid as well. -/
def Admissible (core : KernelStateCore) : KernelRequest → Prop
  | .capDelegate newCap _ => core.revocation.contains newCap.id = false → ∀ p, newCap.parent = some p →
      p < newCap.id ∧ (newCap.isValid = true → core.revocation.isValid p = true)
  | _ => True

theorem validParentPresent_revoked (hindexed : rs.Indexed) (h : ValidParentPresent rs) (c : CapId) :
    ValidParentPresent (rs.revokeWhere fun k ↦ decide (k ∈ rs.collectDescendants c)) := by
  intro k cap p hget hvalid hparent
  rw [RevocationState.get_revokeWhere, Option.map_eq_some_iff] at hget
  obtain ⟨cap', hget', hcap⟩ := hget
  by_cases hk : k ∈ rs.collectDescendants c
  · rw [if_pos (decide_eq_true hk)] at hcap
    rw [← hcap] at hvalid
    cases hvalid
  · rw [if_neg (by simpa using hk)] at hcap
    subst hcap
    obtain ⟨parent, hgetp, hvalidp⟩ := (RevocationState.isValid_iff p).1 (h k cap' p hget' hvalid hparent)
    -- The parent stays valid: were it revoked, its child would have been collected with it.
    have hp : p ∉ rs.collectDescendants c := by
      intro hp
      rw [hindexed.mem_collectDescendants] at hk hp
      exact hk (hp.head (RevocationState.parentOf_eq_some_iff.2 ⟨cap', hget', hparent⟩))
    rw [RevocationState.isValid_iff]
    refine ⟨parent, ?_, hvalidp⟩
    rw [RevocationState.get_revokeWhere, hgetp]
    simp [hp]

theorem Documented.dispatch_iff (h : core.Documented) (hdispatch : kernelDispatch core request = .ok core') :
    core'.Documented ↔ core.Admissible request := by
  obtain ⟨hwell, hstep⟩ := h.toWellFormed.dispatch hdispatch
  generalize hrs : core.revocation = rs at hstep
  generalize hrs' : core'.revocation = rs' at hstep
  have hindexed : rs.Indexed := hrs ▸ h.indexed
  have hlt : rs.ParentLt := hrs ▸ h.parentLt
  have hvalid : ValidParentPresent rs := hrs ▸ h.validParentPresent
  have hiff : core'.Documented ↔ rs'.ParentLt ∧ ValidParentPresent rs' := by
    rw [← hrs']
    constructor
    · intro h'
      exact ⟨h'.parentLt, h'.validParentPresent⟩
    · intro h'
      exact { hwell with parentLt := h'.1, validParentPresent := h'.2 }
  rw [hiff]
  cases hstep with
  | delegated cap target pos hsearch =>
    have habsent : rs.contains cap.id = false := contains_eq_false_iff.2 ⟨pos, hsearch⟩
    have hget := hindexed.get_inserted hsearch
    simp only [Admissible, hrs, habsent, forall_const]
    constructor
    · rintro ⟨hlt', hvalid'⟩ p hparent
      have hself : (rs.inserted cap pos).get cap.id = some cap := by rw [hget, if_pos rfl]
      have hless : p < cap.id :=
        hlt' cap.id p (RevocationState.parentOf_eq_some_iff.2 ⟨cap, hself, hparent⟩)
      refine ⟨hless, ?_⟩
      intro hcap
      have hp := hvalid' cap.id cap p hself hcap hparent
      simpa only [RevocationState.isValid, hget, if_neg hless.ne] using hp
    · intro hadmissible
      refine ⟨hindexed.parentLt_inserted hlt hsearch fun p hparent ↦ (hadmissible p hparent).1, ?_⟩
      intro k cap' p hgetk hcap' hparent
      -- The parent is an older capability in both cases.
      have hold : rs.isValid p = true → (rs.inserted cap pos).isValid p = true := by
        intro hp
        have hne : p ≠ cap.id := by
          rintro rfl
          obtain ⟨old, hgetold, -⟩ := (RevocationState.isValid_iff cap.id).1 hp
          rw [hindexed.get_eq_none hsearch] at hgetold
          cases hgetold
        simpa only [RevocationState.isValid, hget, if_neg hne] using hp
      rw [hget] at hgetk
      split at hgetk
      · cases hgetk
        exact hold ((hadmissible p hparent).2 hcap')
      · exact hold (hvalid k cap' p hgetk hcap' hparent)
  | revoked c =>
    simp only [Admissible, iff_true]
    exact ⟨hlt.revokeWhere _, validParentPresent_revoked hindexed hvalid c⟩
  | setPluginLevel => exact iff_of_true ⟨hlt, hvalid⟩ trivial
  | setResourceLevel => exact iff_of_true ⟨hlt, hvalid⟩ trivial
  | tick => exact iff_of_true ⟨hlt, hvalid⟩ trivial
  | rotateKey => exact iff_of_true ⟨hlt, hvalid⟩ trivial

/-- A delegation is refused only when its identifier is taken. -/
theorem admissible_of_refused {stop : DispatchStop} (hdispatch : kernelDispatch core request = .error stop) :
    core.Admissible request := by
  cases request with
  | capDelegate cap target =>
    intro habsent
    obtain ⟨pos, hsearch⟩ := contains_eq_false_iff.1 habsent
    simp [kernelDispatch, dispatchCapDelegate, habsent, RevocationState.insertMut_eq, hsearch]
      at hdispatch
  | _ => trivial

/-! ## Runs -/

theorem dispatchAll_append (core : KernelStateCore) (done : List KernelRequest)
    (request : KernelRequest) :
    dispatchAll core (done ++ [request]) =
      match kernelDispatch (dispatchAll core done) request with
      | .ok core' => core'
      | .error _ => dispatchAll core done := by
  simp [dispatchAll, List.foldl_append]

/-- The documented invariants hold after every request of a run from the empty core if and only if
every request of the run is admissible where it is made. -/
theorem documented_iff_admissible (key : Key) (requests : List KernelRequest) :
    (∀ done, done <+: requests → (dispatchAll (empty key) done).Documented) ↔
      ∀ done request, done ++ [request] <+: requests →
        (dispatchAll (empty key) done).Admissible request := by
  constructor
  · intro h done request hprefix
    have hbefore := h done ((List.prefix_append done [request]).trans hprefix)
    have hafter := h (done ++ [request]) hprefix
    rw [dispatchAll_append] at hafter
    cases hdispatch : kernelDispatch (dispatchAll (empty key) done) request with
    | ok core' =>
      rw [hdispatch] at hafter
      exact (hbefore.dispatch_iff hdispatch).1 hafter
    | error stop => exact admissible_of_refused hdispatch
  · intro h done
    induction done using List.reverseRecOn with
    | nil =>
      intro _
      exact documented_empty key
    | append_singleton done request ih =>
      intro hprefix
      have hbefore := ih ((List.prefix_append done [request]).trans hprefix)
      rw [dispatchAll_append]
      split
      · next core' hdispatch => exact (hbefore.dispatch_iff hdispatch).2 (h done request hprefix)
      · exact hbefore

/-- A capability whose parent is missing, and larger than it is, is delegated into an empty core. -/
theorem not_documented_orphan : ¬ ∀ (key : Key) (requests : List KernelRequest),
    (dispatchAll (empty key) requests).Documented := by
  intro h
  have hlt := (h Key.empty [.capDelegate (RevocationState.readCap 0 (some 5)) 1]).parentLt
  exact absurd (hlt 0 5 rfl) (by decide)

end KernelStateCore

end Lionagi.LionCore
