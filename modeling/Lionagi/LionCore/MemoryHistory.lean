import Lionagi.Library.Transition
import Lionagi.LionCore.HostCallAtomic
import Lionagi.LionCore.StepRun

/-!
# The history of allocations and releases

Addresses are handed out in order, and the release of an address checks that it was not freed, not that
it was allocated. The quota of a plugin is charged by its allocations and never credited by a release.
-/

namespace Lionagi.LionCore

open SortedTable Transition

/-! ## Addresses -/

section Addresses

/-- The addresses that were handed out are those below the count, and no other was freed. -/
structure MetaState.Dense (ghost : MetaState) : Prop extends ghost.Ordered where
  allocated : ∀ addr, addr < ghost.resourceCount → ∃ owner, ghost.getStatus addr = some (.allocated owner)
  absent : ∀ addr, ghost.resourceCount ≤ addr → ghost.getStatus addr = none
  below : ∀ addr, ghost.isFreed addr = true → addr < ghost.resourceCount

variable {ghost : MetaState}

theorem MetaState.dense_empty : empty.Dense where
  toOrdered := ordered_empty
  allocated := fun _ h ↦ absurd h (Nat.not_lt_zero _)
  absent := fun _ _ ↦ rfl
  below := fun _ h ↦ by cases h

theorem MetaState.Dense.resourceCount_alloc (h : ghost.Dense) (owner : PluginId) :
    (ghost.alloc ghost.resourceCount owner).resourceCount = ghost.resourceCount + 1 := by
  rw [MetaState.resourceCount_alloc, h.absent _ (Nat.le_refl _)]
  rfl

theorem MetaState.Dense.alloc (h : ghost.Dense) (owner : PluginId) :
    (ghost.alloc ghost.resourceCount owner).Dense where
  toOrdered := h.toOrdered.alloc _ _
  allocated := by
    intro addr haddr
    rw [h.resourceCount_alloc] at haddr
    rw [getStatus_alloc h.toOrdered]
    split
    · exact ⟨owner, rfl⟩
    · next hne => exact h.allocated addr (Nat.lt_of_le_of_ne (Nat.lt_succ_iff.1 haddr) hne)
  absent := by
    intro addr haddr
    rw [h.resourceCount_alloc] at haddr
    rw [getStatus_alloc h.toOrdered, if_neg (Nat.ne_of_gt haddr)]
    exact h.absent addr (Nat.le_of_lt haddr)
  below := by
    intro addr haddr
    rw [h.resourceCount_alloc]
    exact Nat.lt_succ_of_lt (h.below addr haddr)

theorem MetaState.Dense.free (h : ghost.Dense) {addr : MemAddr} (haddr : addr < ghost.resourceCount) :
    (ghost.free addr).Dense where
  toOrdered := h.toOrdered.free addr
  allocated := h.allocated
  absent := h.absent
  below := by
    intro a ha
    rw [isFreed_free h.toOrdered] at ha
    obtain rfl | hfreed := ha
    · exact haddr
    · exact h.below a hfreed

theorem MetaState.Dense.isLive_iff (h : ghost.Dense) {addr : MemAddr} (hfreed : ghost.isFreed addr = false) :
    ghost.isLive addr = true ↔ addr < ghost.resourceCount := by
  rw [MetaState.isLive_iff]
  constructor
  · rintro ⟨⟨owner, howner⟩, -⟩
    by_contra hge
    rw [h.absent addr (Nat.not_lt.1 hge)] at howner
    cases howner
  · intro hlt
    exact ⟨h.allocated addr hlt, hfreed⟩

/-- The states in which a run starts: the empty state with a policy, plugins, actors and capabilities,
and with addresses that were allocated directly. -/
inductive Prepared : State → Prop
  | empty : Prepared State.empty
  | policy {s : State} (h : Prepared s) (policy : PolicyState) :
      Prepared { s with kernel := { s.kernel with policy } }
  | insertPlugin {s : State} (h : Prepared s) (pid : PluginId) (ps : PluginState) :
      Prepared (s.insertPlugin pid ps).2
  | insertActor {s : State} (h : Prepared s) (aid : ActorId) (ar : ActorRuntime) :
      Prepared (s.insertActor aid ar).2
  | delegate {s : State} (h : Prepared s) (newCap : Capability) (target : PluginId) :
      Prepared (s.applyCapDelegateMut newCap target).2
  | alloc {s : State} (h : Prepared s) (owner : PluginId) (size : Size) :
      Prepared (s.applyAllocMut owner size).2

theorem Prepared.dense {s : State} (h : Prepared s) : s.ghost.Dense := by
  induction h with
  | empty => exact MetaState.dense_empty
  | policy _ _ ih => exact ih
  | insertPlugin _ pid ps ih =>
    unfold State.insertPlugin
    split <;> exact ih
  | insertActor _ aid ar ih =>
    unfold State.insertActor
    split <;> exact ih
  | delegate _ cap target ih =>
    unfold State.applyCapDelegateMut
    split
    · exact ih
    · rw [updatePlugin_ghost]
      exact ih
  | alloc _ owner size ih => exact ih.alloc owner

end Addresses

/-! ## Temporal safety -/

section Temporal

variable {s s' : State} {step : Step}

/-- A new address was not used before, is live and belongs to the caller. Only live addresses are freed,
so none is freed twice, and a freed address is never live again. -/
structure Safe (s : State) (step : Step) (s' : State) : Prop where
  fresh : ∀ hc, step.Calls .kernelAlloc hc →
    s.ghost.isLive s.ghost.resourceCount = false ∧ s.ghost.isFreed s.ghost.resourceCount = false ∧
      s'.ghost.isLive s.ghost.resourceCount = true ∧
        s'.ghost.getStatus s.ghost.resourceCount = some (.allocated hc.caller)
  freed : ∀ addr, step.Frees s addr → s.ghost.isLive addr = true
  recorded : ∀ addr, s.ghost.isFreed addr = false → s'.ghost.isFreed addr = true → step.Frees s addr
  stays : ∀ addr, s.ghost.isFreed addr = true → s'.ghost.isFreed addr = true ∧ s'.ghost.isLive addr = false

/-- The step frees no address that was never handed out. -/
def FreesBelow (s : State) (step : Step) : Prop :=
  ∀ addr, step.Frees s addr → addr < s.ghost.resourceCount

variable {addr : MemAddr}

theorem isLive_of_isFreed {ghost : MetaState} (h : ghost.isFreed addr = true) : ghost.isLive addr = false := by
  rw [Bool.eq_false_iff, Ne, MetaState.isLive_iff, h]
  simp

theorem MetaState.Dense.frees_iff (h : s.ghost.Dense) (hfrees : step.Frees s addr) :
    s.ghost.isLive addr = true ↔ addr < s.ghost.resourceCount :=
  h.isLive_iff hfrees.freeable.1

theorem GhostEffect.safe (h : GhostEffect s step s') (hs : s.ghost.Dense) (hbelow : FreesBelow s step) :
    Safe s step s' where
  fresh := by
    intro hc hcalls
    cases h with
    | kept _ _ hnone => exact absurd hcalls (hnone hc)
    | freed addr hfrees => cases hfrees.not_calls hcalls
    | allocated hc' hcalls' hghost =>
      obtain ⟨-, rfl⟩ := hcalls.unique hcalls'
      have hnew : s.ghost.isFreed s.ghost.resourceCount = false := by
        rw [Bool.eq_false_iff]
        exact fun hfreed ↦ absurd (hs.below _ hfreed) (Nat.lt_irrefl _)
      have hstatus : s'.ghost.getStatus s.ghost.resourceCount = some (.allocated hc.caller) := by
        rw [hghost, MetaState.getStatus_alloc hs.toOrdered, if_pos rfl]
      refine ⟨?_, hnew, ?_, hstatus⟩
      · rw [Bool.eq_false_iff, Ne, hs.isLive_iff hnew]
        exact Nat.lt_irrefl _
      · rw [MetaState.isLive_iff]
        exact ⟨⟨hc.caller, hstatus⟩, by rw [hghost]; exact hnew⟩
  freed := fun addr hfrees ↦ (hs.frees_iff hfrees).2 (hbelow addr hfrees)
  recorded := by
    intro addr hbefore hafter
    cases h with
    | kept hghost =>
      rw [hghost, hbefore] at hafter
      cases hafter
    | allocated hc _ hghost =>
      rw [hghost] at hafter
      exact absurd (hbefore.symm.trans hafter) (by decide)
    | freed a hfrees hghost =>
      rw [hghost, MetaState.isFreed_free hs.toOrdered] at hafter
      obtain rfl | hfreed := hafter
      · exact hfrees
      · rw [hbefore] at hfreed
        cases hfreed
  stays := by
    intro addr hfreed
    have hafter : s'.ghost.isFreed addr = true := by
      cases h with
      | kept hghost => rwa [hghost]
      | allocated hc _ hghost => rwa [hghost]
      | freed a _ hghost =>
        rw [hghost, MetaState.isFreed_free hs.toOrdered]
        exact .inr hfreed
    exact ⟨hafter, isLive_of_isFreed hafter⟩

theorem GhostEffect.dense (h : GhostEffect s step s') (hs : s.ghost.Dense) (hbelow : FreesBelow s step) :
    s'.ghost.Dense := by
  cases h with
  | kept hghost => rwa [hghost]
  | allocated hc _ hghost =>
    rw [hghost]
    exact hs.alloc hc.caller
  | freed addr hfrees hghost =>
    rw [hghost]
    exact hs.free (hbelow addr hfrees)

/-- A step of a run; one that fails changes nothing. -/
def State.run (s : State) (step : Step) : State :=
  match step.execute s with
  | .ok s' => s'
  | .error _ => s

/-- A release that passes its checks succeeds. -/
theorem Step.Frees.isOk (h : step.Frees s addr) : ∃ s', step.execute s = .ok s' := by
  have hfreeable := h.freeable
  have hcheck := checkFree_eq_ok_iff.2 hfreeable
  cases step with
  | memFree caller addr' =>
    obtain ⟨rfl, -⟩ := h
    refine ⟨{ s with ghost := s.ghost.free addr' }, ?_⟩
    rw [Step.execute, executeMemFree, check_bind_eq_ok_iff, hfreeable.applyFree]
    exact ⟨hcheck, rfl⟩
  | hostCall hc auth result =>
    obtain ⟨hpasses, hfunction, hargs, -⟩ := h
    refine ⟨{ s with ghost := s.ghost.free addr }, ?_⟩
    rw [Step.execute, executeHostCall, check_bind_eq_ok_iff, hfunction, HostFunction.execute,
      HostFunction.executeMemFree, hargs]
    simp only [check_bind_eq_ok_iff, hfreeable.applyFree]
    exact ⟨hpasses, hcheck, rfl⟩
  | _ => exact h.elim

/-- Along a run from a prepared state memory is temporally safe if and only if no step frees an address
that was never handed out. -/
theorem safe_along_iff (s : State) (h : Prepared s) (steps : List Step) :
    Along State.run (fun s step ↦ ∀ s', step.execute s = .ok s' → Safe s step s') s steps ↔
      Along State.run FreesBelow s steps := by
  apply along_iff_along (I := fun s ↦ s.ghost.Dense) _ _ h.dense
  · intro t step ht
    constructor
    · intro hsafe addr hfrees
      obtain ⟨t', hexecute⟩ := hfrees.isOk
      exact (ht.frees_iff hfrees).1 ((hsafe t' hexecute).freed addr hfrees)
    · intro hbelow t' hexecute
      exact (effect_execute hexecute).ghost.safe ht hbelow
  · intro t step ht hbelow
    unfold State.run
    cases hexecute : step.execute t with
    | ok t' => exact (effect_execute hexecute).ghost.dense ht hbelow
    | error e => exact ht

/-- One address was handed out and is freed. -/
theorem safe_along_iff_memFree : Along State.run
    (fun s step ↦ ∀ s', step.execute s = .ok s' → Safe s step s') (State.empty.applyAllocMut 1 8).2
      [.memFree 1 0] := by
  apply (safe_along_iff _ (Prepared.empty.alloc 1 8) [.memFree 1 0]).2
  refine ⟨?_, trivial⟩
  rintro addr ⟨rfl, -⟩
  decide

/-- On the empty state an address is freed that was never live. -/
theorem not_safe_along : ¬ ∀ (s : State), Prepared s → ∀ steps : List Step,
    Along State.run (fun s step ↦ ∀ s', step.execute s = .ok s' → Safe s step s') s steps := by
  intro h
  obtain ⟨hsafe, -⟩ := h State.empty .empty [.memFree 1 0]
  have hlive := (hsafe _ rfl).freed 0 ⟨rfl, rfl, rfl⟩
  exact absurd hlive (by decide)

end Temporal

/-! ## Quotas -/

/-- An allocation that succeeded. -/
structure Allocation where
  owner : PluginId
  addr : MemAddr
  size : Size

/-- A run with the allocations that were not freed. -/
structure Ledger where
  state : State
  unfreed : List Allocation

namespace Step

def allocation (step : Step) (s : State) : List Allocation :=
  match step with
  | .hostCall hc _ _ =>
    if hc.function = .kernelAlloc then [⟨hc.caller, s.ghost.resourceCount, hc.args.head?.getD 0⟩] else []
  | _ => []

/-- The address that the step is to free. -/
def releases : Step → Option MemAddr
  | .memFree _ addr => some addr
  | .hostCall hc _ _ => if hc.function = .memFree then hc.args.head? else none
  | _ => none

end Step

namespace Ledger

def unfreedSize (ledger : Ledger) (pid : PluginId) : ℕ :=
  (ledger.unfreed.map fun a ↦ if a.owner = pid then a.size else 0).sum

/-- A step on one of the paths; one that fails changes nothing. -/
def run (ledger : Ledger) (move : Path × Step) : Ledger :=
  match move.1.execute move.2 ledger.state with
  | .ok state =>
    { state
      unfreed := (ledger.unfreed.filter fun a ↦ move.2.releases ≠ some a.addr) ++
        move.2.allocation ledger.state }
  | .error _ => ledger

/-- What a plugin has used is within its quota. -/
def WithinQuota (ledger : Ledger) : Prop :=
  ∀ pid ps, ledger.state.getPlugin pid = some ps → ps.memoryUsed ≤ ps.memoryQuota

/-- What a plugin has used is what it allocated and did not free; when that is nothing, its quota is free. -/
structure Accounted (ledger : Ledger) : Prop where
  used : ∀ pid ps, ledger.state.getPlugin pid = some ps → ps.memoryUsed = ledger.unfreedSize pid
  full : ∀ pid ps, ledger.state.getPlugin pid = some ps → ledger.unfreedSize pid = 0 →
    ps.canAllocMemory ps.memoryQuota = true

/-- A step that succeeds frees something that was charged to a plugin. -/
def FreesCharged (ledger : Ledger) (move : Path × Step) : Prop :=
  (∃ a ∈ ledger.unfreed, move.2.releases = some a.addr ∧ a.size ≠ 0) ∧
    ∃ s', move.1.execute move.2 ledger.state = .ok s'

end Ledger

section Quotas

variable {s s' : State} {step : Step}

/-- The effect on what the plugins have used: an allocation within the quota charges the caller. -/
inductive MemoryEffect (s : State) (step : Step) (s' : State) : Prop
  | kept (hallocation : step.allocation s = [])
      (hget : ∀ q, (s'.getPlugin q).map (fun ps ↦ (ps.memoryUsed, ps.memoryQuota)) =
        (s.getPlugin q).map fun ps ↦ (ps.memoryUsed, ps.memoryQuota))
  | charged (pid : PluginId) (size : Size) (ps : PluginState) (hreleases : step.releases = none)
      (hallocation : step.allocation s = [⟨pid, s.ghost.resourceCount, size⟩])
      (hps : s.getPlugin pid = some ps) (hroom : ps.canAllocMemory size = true)
      (hget : ∀ q, s'.getPlugin q =
        if q = pid then some (HostFunction.charge size ps) else s.getPlugin q)

theorem MemoryEffect.of_plugins (hplugins : s'.plugins = s.plugins) (hallocation : step.allocation s = []) :
    MemoryEffect s step s' :=
  .kept hallocation fun q ↦ by rw [getPlugin_of_plugins hplugins]

theorem Step.Quiet.allocation (h : step.Quiet) : step.allocation s = [] := by
  cases step with
  | hostCall hc auth result =>
    apply if_neg
    intro hfunction
    simp [Step.Quiet, hfunction] at h
  | _ => rfl

theorem Step.Frees.allocation {addr : MemAddr} (h : step.Frees s addr) : step.allocation s = [] := by
  cases step with
  | hostCall hc auth result =>
    apply if_neg
    rw [h.2.1]
    decide
  | _ => rfl

theorem Step.Revokes.allocation {c : CapId} (h : step.Revokes s c) : step.allocation s = [] := by
  cases step with
  | hostCall hc auth result =>
    apply if_neg
    rw [h.2.1]
    decide
  | _ => rfl

theorem Effect.memory (h : Effect s step s') : MemoryEffect s step s' := by
  cases h with
  | quiet hquiet => exact .of_plugins rfl hquiet.allocation
  | consumed hstep => exact .of_plugins (updateActor_plugins _ _ _) (hstep ▸ rfl)
  | delivered hstep => exact .of_plugins (updateActor_plugins _ _ _) (hstep ▸ rfl)
  | unblocked hstep => exact .of_plugins (updateActor_plugins _ _ _) (hstep ▸ rfl)
  | ticked hstep => exact .of_plugins rfl (hstep ▸ rfl)
  | freed hfrees => exact .of_plugins rfl hfrees.allocation
  | revoked hrevokes => exact .of_plugins rfl hrevokes.allocation
  | @allocated hc auth result plugin hstep hfunction hplugin hroom =>
    subst hstep
    refine .charged hc.caller (hc.args.head?.getD 0) plugin ?_ (if_pos hfunction) hplugin hroom fun q ↦ ?_
    · apply if_neg
      rw [hfunction]
      decide
    · rw [getPlugin_updatePlugin]
      simp only [show (s.applyAlloc hc.caller (hc.args.head?.getD 0)).getPlugin = s.getPlugin from rfl,
        hplugin, Option.map_some]
  | @declassified hc auth result plugin newLevel hstep hfunction hdecode hplugin =>
    subst hstep
    refine .kept (if_neg ?_) fun q ↦ ?_
    · rw [hfunction]
      decide
    · rw [getPlugin_updatePlugin]
      split
      · next heq =>
        rw [heq, hplugin]
        rfl
      · rfl

theorem PathEffect.memory (h : PathEffect s step s') : MemoryEffect s step s' := by
  cases h with
  | shared heffect => exact heffect.memory
  | freed hfrees => exact .of_plugins rfl hfrees.allocation
  | revoked hrevokes => exact .of_plugins rfl hrevokes.allocation

end Quotas

/-! ### Sums -/

/-- Dropping members keeps the sum exactly when they count for nothing. -/
theorem sum_filter_eq_iff {α : Type} (l : List α) (keep : α → Bool) (f : α → ℕ) :
    ((l.filter keep).map f).sum = (l.map f).sum ↔ ∀ a ∈ l, keep a = false → f a = 0 := by
  have hperm := ((List.filter_append_perm keep l).map f).sum_nat
  rw [List.map_append, List.sum_append] at hperm
  have hzero : ((l.filter fun a ↦ !keep a).map f).sum = 0 ↔ ∀ a ∈ l, keep a = false → f a = 0 := by
    rw [List.sum_eq_zero_iff_forall_eq_nat]
    constructor
    · intro h a ha hdropped
      exact h (f a) (List.mem_map_of_mem (List.mem_filter.2 ⟨ha, by rw [hdropped]; rfl⟩))
    · intro h n hn
      obtain ⟨a, ha, rfl⟩ := List.mem_map.1 hn
      obtain ⟨hmem, hdropped⟩ := List.mem_filter.1 ha
      exact h a hmem (by simpa using hdropped)
  rw [← hzero]
  omega

section Runs

variable {ledger : Ledger} {move : Path × Step}

theorem canAllocMemory_iff {ps : PluginState} {size : Size} :
    ps.canAllocMemory size = true ↔ ps.memoryUsed + size < 2 ^ 64 ∧ ps.memoryUsed + size ≤ ps.memoryQuota := by
  unfold PluginState.canAllocMemory checkedAdd
  by_cases h : ps.memoryUsed + size < 2 ^ 64
  · rw [if_pos h]
    simp only [h, true_and, decide_eq_true_eq]
  · rw [if_neg h]
    simp only [h, false_and, Bool.false_eq_true]

/-- The charge of an allocation within the quota does not saturate. -/
theorem charge_memoryUsed {ps : PluginState} {size : Size} (h : ps.canAllocMemory size = true) :
    (HostFunction.charge size ps).memoryUsed = ps.memoryUsed + size := by
  have hlt := (canAllocMemory_iff.1 h).1
  simp only [HostFunction.charge, saturatingAdd]
  omega

theorem Ledger.WithinQuota.run (h : ledger.WithinQuota) : (ledger.run move).WithinQuota := by
  unfold Ledger.run
  cases hexecute : move.1.execute move.2 ledger.state with
  | error e => exact h
  | ok s' =>
    intro pid ps' hps'
    cases (pathEffect_execute hexecute).memory with
    | kept _ hget =>
      have hpair := hget pid
      rw [hps', Option.map_some, eq_comm, Option.map_eq_some_iff] at hpair
      obtain ⟨ps, hps, heq⟩ := hpair
      rw [Prod.mk.injEq] at heq
      rw [← heq.1, ← heq.2]
      exact h pid ps hps
    | charged p size ps _ _ hps hroom hget =>
      change s'.getPlugin pid = some ps' at hps'
      rw [hget] at hps'
      split at hps'
      · cases hps'
        rw [charge_memoryUsed hroom]
        exact (canAllocMemory_iff.1 hroom).2
      · exact h pid ps' hps'

/-- The quotas are machine words, every plugin has used what it did not free, and what was allocated
belongs to a plugin. -/
structure Ledger.Charged (ledger : Ledger) : Prop where
  word : ∀ pid ps, ledger.state.getPlugin pid = some ps → ps.memoryQuota < 2 ^ 64
  used : ∀ pid ps, ledger.state.getPlugin pid = some ps → ps.memoryUsed = ledger.unfreedSize pid
  owned : ∀ a ∈ ledger.unfreed, ∃ ps, ledger.state.getPlugin a.owner = some ps

theorem Ledger.Charged.accounted (h : ledger.Charged) : ledger.Accounted where
  used := h.used
  full := by
    intro pid ps hps hzero
    rw [canAllocMemory_iff, h.used pid ps hps, hzero, Nat.zero_add]
    exact ⟨h.word pid ps hps, Nat.le_refl _⟩

/-- A step that frees nothing that was charged keeps the account. -/
theorem Ledger.Charged.run (h : ledger.Charged) (hfrees : ¬ ledger.FreesCharged move) :
    (ledger.run move).Charged := by
  unfold Ledger.run
  cases hexecute : move.1.execute move.2 ledger.state with
  | error e => exact h
  | ok s' =>
    have hzero : ∀ a ∈ ledger.unfreed, move.2.releases = some a.addr → a.size = 0 := by
      intro a ha hreleases
      by_contra hsize
      exact hfrees ⟨⟨a, ha, hreleases, hsize⟩, s', hexecute⟩
    cases (pathEffect_execute hexecute).memory with
    | kept hallocation hget =>
      have hback : ∀ pid ps', s'.getPlugin pid = some ps' → ∃ ps, ledger.state.getPlugin pid = some ps ∧
          ps.memoryUsed = ps'.memoryUsed ∧ ps.memoryQuota = ps'.memoryQuota := by
        intro pid ps' hps'
        have hpair := hget pid
        rw [hps', Option.map_some, eq_comm, Option.map_eq_some_iff] at hpair
        obtain ⟨ps, hps, heq⟩ := hpair
        exact ⟨ps, hps, Prod.mk.inj heq⟩
      rw [hallocation, List.append_nil]
      constructor
      · intro pid ps' hps'
        obtain ⟨ps, hps, -, hquota⟩ := hback pid ps' hps'
        exact hquota ▸ h.word pid ps hps
      · intro pid ps' hps'
        obtain ⟨ps, hps, hused, -⟩ := hback pid ps' hps'
        rw [← hused, h.used pid ps hps]
        refine ((sum_filter_eq_iff ledger.unfreed _ _).2 fun a ha hdropped ↦ ?_).symm
        rw [hzero a ha (by simpa using hdropped)]
        split <;> rfl
      · intro a ha
        obtain ⟨ps, hps⟩ := h.owned a (List.mem_of_mem_filter ha)
        have hpair := hget a.owner
        rw [hps, Option.map_some, Option.map_eq_some_iff] at hpair
        obtain ⟨ps', hps', -⟩ := hpair
        exact ⟨ps', hps'⟩
    | charged p size ps hreleases hallocation hps hroom hget =>
      rw [hallocation, hreleases]
      have hkept : (ledger.unfreed.filter fun a ↦ (none : Option MemAddr) ≠ some a.addr) =
          ledger.unfreed := by
        simp
      rw [hkept]
      constructor
      · intro pid ps' hps'
        change s'.getPlugin pid = some ps' at hps'
        rw [hget] at hps'
        split at hps'
        · cases hps'
          exact h.word p ps hps
        · exact h.word pid ps' hps'
      · intro pid ps' hps'
        change s'.getPlugin pid = some ps' at hps'
        rw [hget] at hps'
        unfold Ledger.unfreedSize
        rw [List.map_append, List.sum_append]
        split at hps'
        · next heq =>
          cases hps'
          rw [charge_memoryUsed hroom, h.used p ps hps, heq]
          simp [Ledger.unfreedSize]
        · next hne =>
          rw [h.used pid ps' hps']
          simp [Ledger.unfreedSize, Ne.symm hne]
      · intro a ha
        change ∃ ps', s'.getPlugin a.owner = some ps'
        rw [hget]
        split
        · exact ⟨_, rfl⟩
        · next hne =>
          rw [List.mem_append, List.mem_singleton] at ha
          obtain ha | rfl := ha
          · exact h.owned a ha
          · exact absurd rfl hne

/-- A release of what was charged to a plugin is not credited. -/
theorem Ledger.Charged.not_run (h : ledger.Charged) (hfrees : ledger.FreesCharged move) :
    ¬ (ledger.run move).Accounted := by
  intro hrun
  obtain ⟨⟨a, ha, hreleases, hsize⟩, s', hexecute⟩ := hfrees
  unfold Ledger.run at hrun
  rw [hexecute] at hrun
  cases (pathEffect_execute hexecute).memory with
  | charged p size ps hnone =>
    rw [hreleases] at hnone
    cases hnone
  | kept hallocation hget =>
    obtain ⟨ps, hps⟩ := h.owned a ha
    have hpair := hget a.owner
    rw [hps, Option.map_some, Option.map_eq_some_iff] at hpair
    obtain ⟨ps', hps', heq⟩ := hpair
    have hused := hrun.used a.owner ps' hps'
    rw [(Prod.mk.inj heq).1, h.used a.owner ps hps, hallocation, List.append_nil] at hused
    have hcounts := (sum_filter_eq_iff ledger.unfreed _ _).1 hused.symm a ha (by simp [hreleases])
    rw [if_pos rfl] at hcounts
    exact hsize hcounts

end Runs

/-- Along every run no plugin exceeds its quota. Along a run from a state in which nothing was used, the
plugins have used what they allocated and did not free if and only if no step frees an address that was
allocated with a positive size. -/
theorem accounted_throughout_iff (s : State)
    (hstart : ∀ pid ps, s.getPlugin pid = some ps → ps.memoryUsed = 0 ∧ ps.memoryQuota < 2 ^ 64)
    (moves : List (Path × Step)) :
    Throughout Ledger.run Ledger.WithinQuota { state := s, unfreed := [] } moves ∧
      (Throughout Ledger.run Ledger.Accounted { state := s, unfreed := [] } moves ↔
        Along Ledger.run (fun ledger move ↦ ¬ ledger.FreesCharged move) { state := s, unfreed := [] }
          moves) := by
  have hcharged : Ledger.Charged { state := s, unfreed := [] } :=
    { word := fun pid ps hps ↦ (hstart pid ps hps).2
      used := fun pid ps hps ↦ (hstart pid ps hps).1
      owned := fun a ha ↦ absurd ha List.not_mem_nil }
  have hquota : Ledger.WithinQuota { state := s, unfreed := [] } := by
    intro pid ps hps
    rw [(hstart pid ps hps).1]
    exact Nat.zero_le _
  constructor
  · exact Throughout.of_invariant (fun _ _ h ↦ h.run) hquota
  · exact throughout_iff_along (fun _ h ↦ h.accounted) (fun _ _ h hfrees ↦ h.run hfrees)
      (fun _ _ h hfrees ↦ h.not_run (not_not.1 hfrees)) hcharged

/-- Plugin 1 allocates three bytes and frees them. -/
def allocAndFree : List (Path × Step) :=
  [(.pure, .hostCall { callOf .kernelAlloc with args := [3] }
      { cap := ownerCap
        action := { subject := 1, target := 0, rights := Rights.singleton .create, kind := "kernel_alloc" }
        ctx := ⟨0, none⟩
        validated := ⟨owning (MetaState.empty.alloc 0 1), rfl⟩ } ⟨[], []⟩),
    (.pure, .memFree 1 1)]

theorem owning_unused (ghost : MetaState) (pid : PluginId) (ps : PluginState)
    (h : (owning ghost).getPlugin pid = some ps) : ps.memoryUsed = 0 ∧ ps.memoryQuota < 2 ^ 64 := by
  unfold State.getPlugin at h
  obtain ⟨entry, hentry, rfl⟩ := Option.map_eq_some_iff.1 h
  have hmem := mem_of_lookup hentry
  obtain rfl := List.mem_singleton.1 hmem
  decide

theorem not_accounted_throughout : ¬ ∀ (s : State) (moves : List (Path × Step)),
    (∀ pid ps, s.getPlugin pid = some ps → ps.memoryUsed = 0 ∧ ps.memoryQuota < 2 ^ 64) →
      Throughout Ledger.run Ledger.Accounted { state := s, unfreed := [] } moves := by
  intro h
  obtain ⟨-, -, hafter⟩ := h (owning (MetaState.empty.alloc 0 1)) allocAndFree (owning_unused _)
  exact absurd (hafter.used 1 _ rfl) (by decide)

/-- An allocation alone is accounted. -/
theorem accounted_throughout_iff_alloc :
    Throughout Ledger.run Ledger.Accounted
      { state := owning (MetaState.empty.alloc 0 1), unfreed := [] } (allocAndFree.take 1) := by
  apply (accounted_throughout_iff _ (owning_unused _) (allocAndFree.take 1)).2.2
  refine ⟨?_, trivial⟩
  rintro ⟨⟨a, ha, -⟩, -⟩
  exact absurd ha List.not_mem_nil

end Lionagi.LionCore
