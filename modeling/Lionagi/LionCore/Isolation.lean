import Lionagi.LionCore.StepEffect

/-!
# Isolation and noninterference

What a step leaves alone, and what an observer at a security level sees of it.
-/

namespace Lionagi.LionCore

open SortedTable

/-! ## The predicates of the state -/

namespace State

def getResource (state : State) (rid : ResourceId) : Option ResourceInfo :=
  (lookup Prod.fst rid state.resources).map Prod.snd

def preservesIsolation (state other : State) (active : PluginId) : Bool :=
  state.plugins.all fun entry ↦ entry.1 = active ∨ other.getPlugin entry.1 = some entry.2

def temporalSafety (state other : State) : Bool :=
  state.ghost.freedSet.all fun addr ↦ other.ghost.isFreed addr

end State

def pluginsLowEquiv (l : SecurityLevel) (s₁ s₂ : State) : Bool :=
  s₁.plugins.all fun entry ↦ ¬ entry.2.level ≤ l ∨ s₂.getPlugin entry.1 = some entry.2

def resourcesLowEquiv (l : SecurityLevel) (s₁ s₂ : State) : Bool :=
  s₁.resources.all fun entry ↦ ¬ entry.2.level ≤ l ∨ s₂.getResource entry.1 = some entry.2

def lowEquivalentLeft (l : SecurityLevel) (s₁ s₂ : State) : Bool :=
  pluginsLowEquiv l s₁ s₂ && resourcesLowEquiv l s₁ s₂

/-- The states agree on all plugins and resources at or below the level. -/
def lowEquivalent (l : SecurityLevel) (s₁ s₂ : State) : Bool :=
  lowEquivalentLeft l s₁ s₂ && lowEquivalentLeft l s₂ s₁

namespace Step

/-- The level of a step; the kernel acts at the highest one. -/
def level (step : Step) (state : State) : SecurityLevel :=
  match step.subject with
  | some pid => (state.pluginLevel pid).getD .publicLevel
  | none => .secret

def isDeclassify : Step → Bool
  | .hostCall hc _ _ => hc.function == .declassify
  | _ => false

end Step

/-! ## Tables and lookups -/

section Lookups

variable {s : State}

theorem mem_plugins_iff (h : s.Ordered) {pid : PluginId} {ps : PluginState} :
    (pid, ps) ∈ s.plugins ↔ s.getPlugin pid = some ps := by
  unfold State.getPlugin
  rw [Option.map_eq_some_iff]
  constructor
  · intro hmem
    exact ⟨(pid, ps), (lookup_eq_some_iff h.plugins).2 ⟨hmem, rfl⟩, rfl⟩
  · rintro ⟨⟨pid', ps'⟩, hlookup, rfl⟩
    obtain ⟨hmem, rfl⟩ := (lookup_eq_some_iff h.plugins).1 hlookup
    exact hmem

theorem mem_resources_iff (h : s.Ordered) {rid : ResourceId} {ri : ResourceInfo} :
    (rid, ri) ∈ s.resources ↔ s.getResource rid = some ri := by
  unfold State.getResource
  rw [Option.map_eq_some_iff]
  constructor
  · intro hmem
    exact ⟨(rid, ri), (lookup_eq_some_iff h.resources).2 ⟨hmem, rfl⟩, rfl⟩
  · rintro ⟨⟨rid', ri'⟩, hlookup, rfl⟩
    obtain ⟨hmem, rfl⟩ := (lookup_eq_some_iff h.resources).1 hlookup
    exact hmem

theorem preservesIsolation_iff (h : s.Ordered) {s' : State} {active : PluginId} :
    s.preservesIsolation s' active = true ↔
      ∀ pid ps, pid ≠ active → s.getPlugin pid = some ps → s'.getPlugin pid = some ps := by
  simp only [State.preservesIsolation, List.all_eq_true, decide_eq_true_eq]
  constructor
  · intro hall pid ps hne hps
    exact (hall (pid, ps) ((mem_plugins_iff h).2 hps)).resolve_left hne
  · rintro hall ⟨pid, ps⟩ hmem
    by_cases hpid : pid = active
    · exact .inl hpid
    · exact .inr (hall pid ps hpid ((mem_plugins_iff h).1 hmem))

/-- What is low in the first state is the same in the second. -/
structure LowLeft (l : SecurityLevel) (s₁ s₂ : State) : Prop where
  plugins : ∀ pid ps, s₁.getPlugin pid = some ps → ps.level ≤ l → s₂.getPlugin pid = some ps
  resources : ∀ rid ri, s₁.getResource rid = some ri → ri.level ≤ l → s₂.getResource rid = some ri

variable {l : SecurityLevel}

theorem lowEquivalentLeft_iff {s₁ s₂ : State} (h : s₁.Ordered) :
    lowEquivalentLeft l s₁ s₂ = true ↔ LowLeft l s₁ s₂ := by
  simp only [lowEquivalentLeft, pluginsLowEquiv, resourcesLowEquiv, Bool.and_eq_true, List.all_eq_true,
    decide_eq_true_eq]
  constructor
  · rintro ⟨hplugins, hresources⟩
    constructor
    · intro pid ps hps hlow
      exact (hplugins (pid, ps) ((mem_plugins_iff h).2 hps)).resolve_left fun hhigh ↦ hhigh hlow
    · intro rid ri hri hlow
      exact (hresources (rid, ri) ((mem_resources_iff h).2 hri)).resolve_left fun hhigh ↦ hhigh hlow
  · rintro ⟨hplugins, hresources⟩
    constructor
    · rintro ⟨pid, ps⟩ hmem
      by_cases hlow : ps.level ≤ l
      · exact .inr (hplugins pid ps ((mem_plugins_iff h).1 hmem) hlow)
      · exact .inl hlow
    · rintro ⟨rid, ri⟩ hmem
      by_cases hlow : ri.level ≤ l
      · exact .inr (hresources rid ri ((mem_resources_iff h).1 hmem) hlow)
      · exact .inl hlow

theorem lowEquivalent_iff {s₁ s₂ : State} (h₁ : s₁.Ordered) (h₂ : s₂.Ordered) :
    lowEquivalent l s₁ s₂ = true ↔ LowLeft l s₁ s₂ ∧ LowLeft l s₂ s₁ := by
  rw [lowEquivalent, Bool.and_eq_true, lowEquivalentLeft_iff h₁, lowEquivalentLeft_iff h₂]

end Lookups

/-! ## What a step leaves alone -/

section Frame

variable {s s' : State} {step : Step}

/-- The host call of a step, if it is one of this function. -/
def Step.Calls (step : Step) (function : HostFunction) (hc : HostCall) : Prop :=
  ∃ auth result, step = .hostCall hc auth result ∧ hc.function = function

/-- The effect on the plugins: none, or an update of the caller of an allocation or declassification. -/
inductive PluginEffect (s : State) (step : Step) (s' : State) : Prop
  | kept (hplugins : s'.plugins = s.plugins)
      (hcalls : ∀ hc, ¬ step.Calls .kernelAlloc hc ∧ ¬ step.Calls .declassify hc)
  | charged (hc : HostCall) (ps : PluginState) (hcalls : step.Calls .kernelAlloc hc)
      (hps : s.getPlugin hc.caller = some ps)
      (hget : ∀ q, s'.getPlugin q = if q = hc.caller then
        some (HostFunction.charge (hc.args.head?.getD 0) ps) else s.getPlugin q)
  | lowered (hc : HostCall) (level : SecurityLevel) (ps : PluginState)
      (hcalls : step.Calls .declassify hc)
      (hdecode : HostFunction.decodeLevel (hc.args.head?.getD 0) = .ok level)
      (hps : s.getPlugin hc.caller = some ps) (hlevel : level ≤ ps.level)
      (hget : ∀ q, s'.getPlugin q = if q = hc.caller then some { ps with level } else s.getPlugin q)

variable {function : HostFunction} {hc : HostCall}

theorem Step.Calls.subject (h : step.Calls function hc) : step.subject = some hc.caller := by
  obtain ⟨auth, result, rfl, -⟩ := h
  rfl

theorem Step.Calls.isDeclassify (h : step.Calls function hc) : step.isDeclassify = (function == .declassify) := by
  obtain ⟨auth, result, rfl, rfl⟩ := h
  rfl

/-- A step is the call of one function. -/
theorem Step.Calls.unique {function' : HostFunction} {hc' : HostCall} (h : step.Calls function hc)
    (h' : step.Calls function' hc') : function = function' ∧ hc = hc' := by
  obtain ⟨auth, result, rfl, rfl⟩ := h
  obtain ⟨auth', result', heq, rfl⟩ := h'
  cases heq
  exact ⟨rfl, rfl⟩

theorem Effect.plugins (h : Effect s step s') : PluginEffect s step s' := by
  cases h with
  | quiet hquiet =>
    refine .kept rfl fun hc ↦ ⟨?_, ?_⟩
    · rintro ⟨auth, result, rfl, hfunction⟩
      simp [Step.Quiet, hfunction] at hquiet
    · rintro ⟨auth, result, rfl, hfunction⟩
      simp [Step.Quiet, hfunction] at hquiet
  | consumed hstep =>
    subst hstep
    exact .kept (updateActor_plugins _ _ _) fun hc ↦ by simp [Step.Calls]
  | delivered hstep =>
    subst hstep
    exact .kept (updateActor_plugins _ _ _) fun hc ↦ by simp [Step.Calls]
  | unblocked hstep =>
    subst hstep
    exact .kept (updateActor_plugins _ _ _) fun hc ↦ by simp [Step.Calls]
  | ticked hstep =>
    subst hstep
    exact .kept rfl fun hc ↦ by simp [Step.Calls]
  | freed hfrees =>
    refine .kept rfl fun hc ↦ ⟨?_, ?_⟩
    · rintro ⟨auth, result, rfl, hfunction⟩
      simp [Step.Frees, hfunction] at hfrees
    · rintro ⟨auth, result, rfl, hfunction⟩
      simp [Step.Frees, hfunction] at hfrees
  | revoked hrevokes =>
    refine .kept rfl fun hc ↦ ⟨?_, ?_⟩
    · rintro ⟨auth, result, rfl, hfunction⟩
      simp [Step.Revokes, hfunction] at hrevokes
    · rintro ⟨auth, result, rfl, hfunction⟩
      simp [Step.Revokes, hfunction] at hrevokes
  | @allocated hc auth result plugin hstep hfunction hplugin hroom =>
    refine .charged hc plugin ⟨auth, result, hstep, hfunction⟩ hplugin fun q ↦ ?_
    rw [getPlugin_updatePlugin]
    simp only [show (s.applyAlloc hc.caller (hc.args.head?.getD 0)).getPlugin = s.getPlugin from rfl,
      hplugin, Option.map_some]
  | @declassified hc auth result plugin newLevel hstep hfunction hdecode hplugin hlevel =>
    refine .lowered hc newLevel plugin ⟨auth, result, hstep, hfunction⟩ hdecode hplugin hlevel
      fun q ↦ ?_
    rw [getPlugin_updatePlugin, hplugin, Option.map_some]

theorem getPlugin_of_plugins (h : s'.plugins = s.plugins) (pid : PluginId) :
    s'.getPlugin pid = s.getPlugin pid := by
  rw [State.getPlugin, h, State.getPlugin]

/-- Plugins other than the subject are what they were. -/
theorem PluginEffect.getPlugin_of_ne (h : PluginEffect s step s') {pid : PluginId}
    (hne : step.subject ≠ some pid) : s'.getPlugin pid = s.getPlugin pid := by
  cases h with
  | kept hplugins => exact getPlugin_of_plugins hplugins pid
  | charged hc ps hcalls _ hget =>
    rw [hget, if_neg]
    rintro rfl
    exact hne hcalls.subject
  | lowered hc level ps hcalls _ _ _ hget =>
    rw [hget, if_neg]
    rintro rfl
    exact hne hcalls.subject

/-- No level rises. -/
theorem PluginEffect.level_le (h : PluginEffect s step s') {pid : PluginId} {ps' : PluginState}
    (hps' : s'.getPlugin pid = some ps') : ∃ ps, s.getPlugin pid = some ps ∧ ps'.level ≤ ps.level := by
  have hrefl : ∀ level : SecurityLevel, level ≤ level := fun level ↦ Nat.le_refl level.toU8
  cases h with
  | kept hplugins => exact ⟨ps', (getPlugin_of_plugins hplugins pid).symm.trans hps', hrefl _⟩
  | charged hc ps _ hps hget =>
    rw [hget] at hps'
    split at hps'
    · next heq =>
      cases hps'
      exact ⟨ps, heq ▸ hps, hrefl _⟩
    · exact ⟨ps', hps', hrefl _⟩
  | lowered hc level ps _ _ hps hlevel hget =>
    rw [hget] at hps'
    split at hps'
    · next heq =>
      cases hps'
      exact ⟨ps, heq ▸ hps, hlevel⟩
    · exact ⟨ps', hps', hrefl _⟩

theorem Effect.resources (h : Effect s step s') : s'.resources = s.resources := by
  cases h with
  | consumed => exact updateActor_resources _ _ _
  | delivered => exact updateActor_resources _ _ _
  | unblocked => exact updateActor_resources _ _ _
  | allocated => exact updatePlugin_resources _ _ _
  | declassified => exact updatePlugin_resources _ _ _
  | _ => rfl

theorem Effect.now (h : Effect s step s') : s'.kernel.now = s.kernel.now ∨
    step = .kernelInternal .timeTick ∧ s'.kernel.now = s.kernel.now + 1 := by
  cases h with
  | ticked hstep => exact .inr ⟨hstep, rfl⟩
  | consumed => exact .inl (by rw [updateActor_kernel])
  | delivered => exact .inl (by rw [updateActor_kernel])
  | unblocked => exact .inl (by rw [updateActor_kernel])
  | allocated => exact .inl (by rw [updatePlugin_kernel]; rfl)
  | declassified => exact .inl (by rw [updatePlugin_kernel])
  | _ => exact .inl rfl

/-- The capability table is kept, or some of its capabilities are revoked. -/
theorem Effect.caps (h : Effect s step s') : ∃ P : CapId → Bool, ∀ c,
    s'.getCap c = (s.getCap c).map fun cap ↦ if P c then cap.revoke else cap := by
  have hkept : ∀ t : State, t.kernel.revocation = s.kernel.revocation →
      ∃ P : CapId → Bool, ∀ c, t.getCap c = (s.getCap c).map fun cap ↦ if P c then cap.revoke else cap := by
    intro t ht
    refine ⟨fun _ ↦ false, fun c ↦ ?_⟩
    rw [State.getCap, ht, State.getCap]
    simp
  cases h with
  | @revoked c =>
    refine ⟨fun k ↦ s.kernel.revocation.inRevokeSet k c, fun k ↦ ?_⟩
    rw [State.getCap, State.applyCapRevoke, RevocationState.revokeTransitive_eq]
    exact RevocationState.get_revokeWhere s.kernel.revocation _ k
  | consumed => exact hkept _ (by rw [updateActor_kernel])
  | delivered => exact hkept _ (by rw [updateActor_kernel])
  | unblocked => exact hkept _ (by rw [updateActor_kernel])
  | allocated => exact hkept _ (by rw [updatePlugin_kernel]; rfl)
  | declassified => exact hkept _ (by rw [updatePlugin_kernel])
  | _ => exact hkept _ rfl

/-- The effect on the addresses: none, an allocation or a release. -/
inductive GhostEffect (s : State) (step : Step) (s' : State) : Prop
  | kept (hghost : s'.ghost = s.ghost) (hfrees : ∀ addr, ¬ step.Frees s addr)
      (hcalls : ∀ hc, ¬ step.Calls .kernelAlloc hc)
  | allocated (hc : HostCall) (hcalls : step.Calls .kernelAlloc hc)
      (hghost : s'.ghost = s.ghost.alloc s.ghost.resourceCount hc.caller)
  | freed (addr : MemAddr) (hfrees : step.Frees s addr) (hghost : s'.ghost = s.ghost.free addr)

theorem Step.Frees.not_calls {addr : MemAddr} (h : step.Frees s addr) (hcalls : step.Calls function hc) :
    function = .memFree := by
  obtain ⟨auth, result, rfl, rfl⟩ := hcalls
  exact h.2.1

theorem Effect.ghost (h : Effect s step s') : GhostEffect s step s' := by
  cases h with
  | quiet hquiet =>
    refine .kept rfl (fun addr hfrees ↦ ?_) ?_
    · cases step with
      | hostCall hc auth result =>
        obtain ⟨-, hfunction, -⟩ := hfrees
        simp [Step.Quiet, hfunction] at hquiet
      | memFree => exact hquiet
      | _ => exact hfrees
    · rintro hc ⟨auth, result, rfl, hfunction⟩
      simp [Step.Quiet, hfunction] at hquiet
  | consumed hstep =>
    subst hstep
    exact .kept (updateActor_ghost _ _) (fun _ hfrees ↦ hfrees) (by simp [Step.Calls])
  | delivered hstep =>
    subst hstep
    exact .kept (updateActor_ghost _ _) (fun _ hfrees ↦ hfrees) (by simp [Step.Calls])
  | unblocked hstep =>
    subst hstep
    exact .kept (updateActor_ghost _ _) (fun _ hfrees ↦ hfrees) (by simp [Step.Calls])
  | ticked hstep =>
    subst hstep
    exact .kept rfl (fun _ hfrees ↦ hfrees) (by simp [Step.Calls])
  | @allocated hc auth result plugin hstep hfunction =>
    exact .allocated hc ⟨auth, result, hstep, hfunction⟩ (updatePlugin_ghost _ _)
  | @freed addr hfrees => exact .freed addr hfrees rfl
  | @revoked c hrevokes =>
    refine .kept rfl (fun addr hfrees ↦ ?_) ?_
    · cases step with
      | hostCall hc auth result =>
        obtain ⟨-, hfunction, -⟩ := hfrees
        simp [Step.Revokes, hfunction] at hrevokes
      | memFree => exact hrevokes
      | _ => exact hfrees
    · rintro hc ⟨auth, result, rfl, hfunction⟩
      simp [Step.Revokes, hfunction] at hrevokes
  | @declassified hc auth result plugin newLevel hstep hfunction =>
    have hcalls : step.Calls .declassify hc := ⟨auth, result, hstep, hfunction⟩
    refine .kept (updatePlugin_ghost _ _) (fun addr hfrees ↦ ?_) fun hc' hcalls' ↦ ?_
    · cases hfrees.not_calls hcalls
    · cases (hcalls.unique hcalls').1

/-- Freed addresses stay freed. -/
theorem GhostEffect.isFreed_mono (h : GhostEffect s step s') (hs : s.Ordered) {addr : MemAddr}
    (hfreed : s.ghost.isFreed addr = true) : s'.ghost.isFreed addr = true := by
  cases h with
  | kept hghost => rwa [hghost]
  | allocated hc _ hghost =>
    rw [hghost]
    exact hfreed
  | freed a _ hghost =>
    rw [hghost, MetaState.isFreed_free hs.ghost]
    exact .inr hfreed

/-- A mailbox is within the capacity of its actor. -/
def WithinCapacity (s : State) : Prop :=
  ∀ aid actor, s.getActor aid = some actor → actor.mailbox.length ≤ actor.capacity

theorem getActor_of_actors (h : s'.actors = s.actors) (aid : ActorId) :
    s'.getActor aid = s.getActor aid := by
  rw [State.getActor, h, State.getActor]

theorem WithinCapacity.updateActor (h : WithinCapacity s) (aid : ActorId)
    {f : ActorRuntime → ActorRuntime}
    (hf : ∀ actor, s.getActor aid = some actor → actor.mailbox.length ≤ actor.capacity →
      (f actor).mailbox.length ≤ (f actor).capacity) : WithinCapacity (s.updateActor aid f) := by
  intro b actor hactor
  rw [getActor_updateActor] at hactor
  split at hactor
  · obtain ⟨old, hold, rfl⟩ := Option.map_eq_some_iff.1 hactor
    exact hf old hold (h aid old hold)
  · exact h b actor hactor

theorem Effect.withinCapacity (h : Effect s step s') (hs : WithinCapacity s) : WithinCapacity s' := by
  have hkept : ∀ t : State, t.actors = s.actors → WithinCapacity t := by
    intro t ht aid actor hactor
    exact hs aid actor ((getActor_of_actors ht aid).symm.trans hactor)
  cases h with
  | quiet => exact hs
  | consumed =>
    apply hs.updateActor
    intro actor _ hlength
    simp only [ActorRuntime.consumeMut, List.length_tail]
    omega
  | @delivered dst actor hstep hactor hpending hspace =>
    apply hs.updateActor
    intro old hold hlength
    rw [hactor, Option.some.injEq] at hold
    subst hold
    unfold ActorRuntime.deliverMut
    split
    · exact hlength
    · rw [if_pos hspace, List.length_append]
      exact hspace
  | unblocked => exact hs.updateActor _ fun actor _ hlength ↦ hlength
  | ticked => exact hkept _ rfl
  | allocated => exact hkept _ (updatePlugin_actors _ _ _)
  | freed => exact hkept _ rfl
  | revoked => exact hkept _ rfl
  | declassified => exact hkept _ (updatePlugin_actors _ _ _)

end Frame

/-! ## Isolation -/

/-- The plugins that are not the subject, the freed set, the capabilities, the clock, the levels and the
mailboxes after a step. -/
structure Framed (s : State) (step : Step) (s' : State) : Prop where
  others : ∀ pid, step.subject ≠ some pid → s'.getPlugin pid = s.getPlugin pid
  isolation : ∀ pid, step.subject = some pid → s.preservesIsolation s' pid = true
  kernel : ∀ op, step = .kernelInternal op → s'.plugins = s.plugins
  temporal : s.temporalSafety s' = true
  revoked : ∀ c cap', s'.getCap c = some cap' →
    ∃ cap, s.getCap c = some cap ∧ (cap' = cap ∨ cap' = cap.revoke)
  recorded : ∀ c, (s'.getCap c).isSome = (s.getCap c).isSome
  time : s.kernel.now ≤ s'.kernel.now
  timeTick : s'.kernel.now ≠ s.kernel.now → step = .kernelInternal .timeTick
  levels : ∀ pid ps', s'.getPlugin pid = some ps' →
    ∃ ps, s.getPlugin pid = some ps ∧ ps'.level ≤ ps.level
  mailboxes : WithinCapacity s'

/-- Every step that succeeds leaves alone what it should. -/
theorem framed_execute (s : State) (hs : s.Ordered) (hcapacity : WithinCapacity s) (step : Step)
    (s' : State) (h : step.execute s = .ok s') : Framed s step s' := by
  have heffect := effect_execute h
  have hplugins := heffect.plugins
  obtain ⟨P, hcaps⟩ := heffect.caps
  exact
    { others := fun pid hne ↦ hplugins.getPlugin_of_ne hne
      isolation := by
        intro pid hsubject
        rw [preservesIsolation_iff hs]
        intro q ps hne hps
        rw [hplugins.getPlugin_of_ne, hps]
        rw [hsubject]
        exact fun heq ↦ hne (Option.some.inj heq).symm
      kernel := by
        rintro op rfl
        cases hplugins with
        | kept hkept => exact hkept
        | charged hc ps hcalls => cases hcalls.subject
        | lowered hc level ps hcalls => cases hcalls.subject
      temporal := by
        rw [State.temporalSafety, List.all_eq_true]
        intro addr haddr
        exact heffect.ghost.isFreed_mono hs ((MetaState.isFreed_iff_mem hs.ghost).2 haddr)
      revoked := by
        intro c cap' hcap'
        rw [hcaps, Option.map_eq_some_iff] at hcap'
        obtain ⟨cap, hcap, rfl⟩ := hcap'
        refine ⟨cap, hcap, ?_⟩
        split
        · exact .inr rfl
        · exact .inl rfl
      recorded := fun c ↦ by rw [hcaps, Option.isSome_map]
      time := by
        obtain hnow | ⟨-, hnow⟩ := heffect.now
        · exact hnow.ge
        · exact hnow ▸ Nat.le_succ _
      timeTick := fun hne ↦ (heffect.now.resolve_left hne).1
      levels := fun pid ps' hps' ↦ hplugins.level_le hps'
      mailboxes := heffect.withinCapacity hcapacity }

/-- Plugin 1 is public and has a message on its way to its mailbox, plugin 2 is secret. -/
def observed (used : ℕ) : State :=
  { State.empty with
    plugins := [(1, PluginState.empty .publicLevel 8),
      (2, { PluginState.empty .secret 8 with memoryUsed := used })]
    actors := [(1, ⟨[⟨1, 2, 1, .publicLevel, []⟩], [], 1, none, none⟩)] }

theorem observed_ordered (used : ℕ) : (observed used).Ordered where
  plugins := by simp [Sorted, observed]
  actors := by simp [Sorted, observed]
  resources := sorted_nil
  workflows := sorted_nil
  ghost := MetaState.ordered_empty

theorem observed_withinCapacity (used : ℕ) : WithinCapacity (observed used) := by
  intro aid actor hactor
  unfold State.getActor at hactor
  obtain ⟨entry, hentry, rfl⟩ := Option.map_eq_some_iff.1 hactor
  have hmem := mem_of_lookup hentry
  simp only [observed, List.mem_singleton] at hmem
  simp [hmem]

theorem framed_execute_routeOne : ∃ s', (Step.kernelInternal (.routeOne 1)).execute (observed 0) = .ok s' ∧
    Framed (observed 0) (.kernelInternal (.routeOne 1)) s' := by
  refine ⟨_, rfl, ?_⟩
  exact framed_execute (observed 0) (observed_ordered 0) (observed_withinCapacity 0) _ _ rfl

/-! ## Noninterference -/

section Noninterference

variable {l : SecurityLevel} {s s' s₁ s₁' s₂ s₂' : State} {step : Step}

theorem LowLeft.refl (l : SecurityLevel) (s : State) : LowLeft l s s :=
  ⟨fun _ _ hps _ ↦ hps, fun _ _ hri _ ↦ hri⟩

theorem LowLeft.of_getPlugin (h : LowLeft l s₁ s₂) (hresources₁ : s₁'.resources = s₁.resources)
    (hresources₂ : s₂'.resources = s₂.resources)
    (hplugins : ∀ pid ps, s₁'.getPlugin pid = some ps → ps.level ≤ l →
      s₂'.getPlugin pid = some ps) : LowLeft l s₁' s₂' where
  plugins := hplugins
  resources := by
    simp only [State.getResource, hresources₁, hresources₂]
    exact h.resources

theorem Step.Calls.level_eq {function : HostFunction} {hc : HostCall} {ps : PluginState}
    (h : step.Calls function hc) (hps : s.getPlugin hc.caller = some ps) : step.level s = ps.level := by
  unfold Step.level
  rw [h.subject]
  simp [State.pluginLevel, hps]

/-- A low observer of both results sees the same plugins: the caller has the same state in both runs
when it is low in the first. -/
theorem LowLeft.execute (h : LowLeft l s₁ s₂) (hdeclassify : step.isDeclassify = true → step.level s₁ ≤ l)
    (h₁ : Effect s₁ step s₁') (h₂ : Effect s₂ step s₂') : LowLeft l s₁' s₂' := by
  apply h.of_getPlugin h₁.resources h₂.resources
  intro pid ps hps hlow
  cases h₁.plugins with
  | kept hplugins₁ hcalls₁ =>
    rw [getPlugin_of_plugins hplugins₁] at hps
    cases h₂.plugins with
    | kept hplugins₂ =>
      rw [getPlugin_of_plugins hplugins₂]
      exact h.plugins pid ps hps hlow
    | charged hc ps₂ hcalls₂ => exact absurd hcalls₂ (hcalls₁ hc).1
    | lowered hc level ps₂ hcalls₂ => exact absurd hcalls₂ (hcalls₁ hc).2
  | charged hc ps₁ hcalls₁ hps₁ hget₁ =>
    cases h₂.plugins with
    | kept _ hcalls₂ => exact absurd hcalls₁ (hcalls₂ hc).1
    | charged hc' ps₂ hcalls₂ hps₂ hget₂ =>
      obtain ⟨-, rfl⟩ := hcalls₁.unique hcalls₂
      rw [hget₁] at hps
      rw [hget₂]
      split at hps
      · next heq =>
        cases hps
        have hsame : ps₂ = ps₁ :=
          Option.some.inj (hps₂.symm.trans (h.plugins hc.caller ps₁ hps₁ hlow))
        rw [if_pos heq, hsame]
      · next hne =>
        rw [if_neg hne]
        exact h.plugins pid ps hps hlow
    | lowered hc' level ps₂ hcalls₂ => cases (hcalls₁.unique hcalls₂).1
  | lowered hc level ps₁ hcalls₁ hdecode₁ hps₁ hlevel₁ hget₁ =>
    cases h₂.plugins with
    | kept _ hcalls₂ => exact absurd hcalls₁ (hcalls₂ hc).2
    | charged hc' ps₂ hcalls₂ => cases (hcalls₁.unique hcalls₂).1
    | lowered hc' level' ps₂ hcalls₂ hdecode₂ hps₂ hlevel₂ hget₂ =>
      obtain ⟨-, rfl⟩ := hcalls₁.unique hcalls₂
      obtain rfl : level = level' := Except.ok.inj (hdecode₁.symm.trans hdecode₂)
      have hcaller : ps₁.level ≤ l := by
        rw [← hcalls₁.level_eq hps₁]
        exact hdeclassify hcalls₁.isDeclassify
      rw [hget₁] at hps
      rw [hget₂]
      split at hps
      · next heq =>
        cases hps
        have hsame : ps₂ = ps₁ :=
          Option.some.inj (hps₂.symm.trans (h.plugins hc.caller ps₁ hps₁ hcaller))
        rw [if_pos heq, hsame]
      · next hne =>
        rw [if_neg hne]
        exact h.plugins pid ps hps hlow

/-- The caller of a declassification is low in the second state when it is in the first. -/
theorem LowLeft.declassify_level (h : LowLeft l s₁ s₂)
    (hdeclassify : step.isDeclassify = true → step.level s₁ ≤ l) (h₁ : Effect s₁ step s₁')
    (hstep : step.isDeclassify = true) : step.level s₂ ≤ l := by
  cases h₁.plugins with
  | kept _ hcalls =>
    cases step with
    | hostCall hc auth result =>
      exact absurd ⟨auth, result, rfl, by simpa [Step.isDeclassify] using hstep⟩ (hcalls hc).2
    | _ => cases hstep
  | charged hc ps hcalls =>
    rw [hcalls.isDeclassify] at hstep
    cases hstep
  | lowered hc level ps hcalls hdecode hps =>
    have hcaller : ps.level ≤ l := by
      rw [← hcalls.level_eq hps]
      exact hdeclassify hstep
    rw [hcalls.level_eq (h.plugins hc.caller ps hps hcaller)]
    exact hcaller

/-- A step of a high subject is invisible. -/
theorem LowLeft.invisible (hhigh : ¬ step.level s ≤ l) (hdeclassify : step.isDeclassify = false)
    (h : Effect s step s') : LowLeft l s s' ∧ LowLeft l s' s := by
  have hget : ∀ pid ps, ps.level ≤ l → (s'.getPlugin pid = some ps ↔ s.getPlugin pid = some ps) := by
    intro pid ps hlow
    cases h.plugins with
    | kept hplugins => rw [getPlugin_of_plugins hplugins]
    | charged hc ps₁ hcalls hps₁ hget =>
      rw [hcalls.level_eq hps₁] at hhigh
      rw [hget]
      split
      · next heq =>
        -- neither the old nor the new state of the caller is low
        rw [heq, hps₁, Option.some.injEq, Option.some.injEq]
        constructor
        · rintro rfl
          exact absurd hlow hhigh
        · rintro rfl
          exact absurd hlow hhigh
      · rfl
    | lowered hc level ps₁ hcalls =>
      rw [hcalls.isDeclassify] at hdeclassify
      cases hdeclassify
  constructor
  · exact (LowLeft.refl l s).of_getPlugin rfl h.resources fun pid ps hps hlow ↦
      (hget pid ps hlow).2 hps
  · exact (LowLeft.refl l s).of_getPlugin h.resources rfl fun pid ps hps hlow ↦
      (hget pid ps hlow).1 hps

end Noninterference

/-- Steps preserve low equivalence, except declassifications by a high caller, and steps of a high
subject other than declassifications are invisible. -/
theorem noninterference (l : SecurityLevel) (step : Step) :
    (∀ s₁ s₂ s₁' s₂' : State, s₁.Ordered → s₂.Ordered → lowEquivalent l s₁ s₂ = true →
      (step.isDeclassify = true → step.level s₁ ≤ l) → step.execute s₁ = .ok s₁' →
        step.execute s₂ = .ok s₂' → lowEquivalent l s₁' s₂' = true) ∧
    ∀ s s' : State, s.Ordered → ¬ step.level s ≤ l → step.isDeclassify = false →
      step.execute s = .ok s' → lowEquivalent l s s' = true := by
  constructor
  · intro s₁ s₂ s₁' s₂' hs₁ hs₂ hlow hdeclassify h₁ h₂
    have heffect₁ := effect_execute h₁
    have heffect₂ := effect_execute h₂
    rw [lowEquivalent_iff hs₁ hs₂] at hlow
    rw [lowEquivalent_iff (heffect₁.ordered hs₁) (heffect₂.ordered hs₂)]
    exact ⟨hlow.1.execute hdeclassify heffect₁ heffect₂,
      hlow.2.execute (hlow.1.declassify_level hdeclassify heffect₁) heffect₂ heffect₁⟩
  · intro s s' hs hhigh hdeclassify h
    have heffect := effect_execute h
    rw [lowEquivalent_iff hs (heffect.ordered hs)]
    exact LowLeft.invisible hhigh hdeclassify heffect

/-- A release by the secret plugin, in two states that differ in what it has used. -/
theorem noninterference_memFree : ∃ s₁' s₂',
    (Step.memFree 2 9).execute (observed 0) = .ok s₁' ∧
      (Step.memFree 2 9).execute (observed 5) = .ok s₂' ∧
        lowEquivalent .publicLevel s₁' s₂' = true ∧
          lowEquivalent .publicLevel (observed 0) s₁' = true := by
  obtain ⟨htwo, hone⟩ := noninterference .publicLevel (.memFree 2 9)
  refine ⟨_, _, rfl, rfl, ?_, ?_⟩
  · exact htwo (observed 0) (observed 5) _ _ (observed_ordered 0) (observed_ordered 5) (by decide)
      (fun h ↦ by cases h) rfl rfl
  · exact hone (observed 0) _ (observed_ordered 0) (by decide) rfl rfl

end Lionagi.LionCore
