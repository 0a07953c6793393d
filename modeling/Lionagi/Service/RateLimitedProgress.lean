import Lionagi.Library.Transition
import Lionagi.Service.RateLimited

/-!
# Budgets and progress of the rate-limited processor

No more is granted between two replenishments than the limits allow, and a denial is free, in every run. A pass
that starts nothing leaves behind only calls that ask for more than there is exactly where, at each deferral that
ends its loop, a limit is configured and every other call that is queued was denied since the last
replenishment or asks for more than there is.
-/

namespace Lionagi.Service

open Transition

namespace Available

variable {available : Available} {call other : ApiCall}

theorem tokens_charge : (available.charge call).tokens =
    available.tokens.map fun tokens ↦ tokens - (call.tokens : ℤ) := by
  unfold charge
  refine congrArg (Option.map · available.tokens) (funext fun tokens ↦ ?_)
  split
  · rfl
  · next hzero =>
    rw [not_not] at hzero
    rw [hzero, Int.natCast_zero, Int.sub_zero]

/-- What is left after a call allows no more than before. -/
theorem allows_of_charge (h : (available.charge call).Allows other) : available.Allows other := by
  constructor
  · intro requests hrequests
    have hleft := h.1 (requests - 1) (Option.mem_map_of_mem _ hrequests)
    omega
  · intro tokens htokens hneeds
    have hleft : (other.tokens : ℤ) ≤ tokens - call.tokens := by
      apply h.2 _ _ hneeds
      rw [tokens_charge]
      exact Option.mem_map_of_mem _ htokens
    omega

end Available

namespace RateLimited

variable (system : RateLimited)

/-! ## The property -/

/-- The tokens that the calls need together. -/
def totalTokens (calls : List ApiCall) : ℕ := calls.foldl (fun total call ↦ total + call.tokens) 0

theorem totalTokens_concat (calls : List ApiCall) (call : ApiCall) :
    totalTokens (calls ++ [call]) = totalTokens calls + call.tokens :=
  List.foldl_append

/-- What was granted since the last replenishment is within the limits, and no budget is negative. -/
structure Budgeted : Prop where
  requests : ∀ limit ∈ system.limitRequests, system.granted.length ≤ limit
  tokens : ∀ limit ∈ system.limitTokens, totalTokens system.granted ≤ limit
  requestsLeft : ∀ requests ∈ system.available.requests, 0 ≤ requests
  tokensLeft : ∀ tokens ∈ system.available.tokens, 0 ≤ tokens

/-- A pass that left its loop with capacity and had started nothing left only calls that asked for more than
there was. -/
def Progresses : Prop :=
  ∀ left ∈ system.exits, 0 < left.capacity → left.started = 0 → ∀ call ∈ left.queue,
    ¬ left.available.Allows call

/-- A call is permitted: within the budgets, or without limits by the length of the queue. -/
def Permits (call : ApiCall) : Prop :=
  if system.available.requests = none ∧ system.available.tokens = none then
    system.queue.length < system.queueCapacity
  else system.available.Allows call

instance (call : ApiCall) : Decidable (system.Permits call) := by
  unfold Permits
  infer_instance

/-- A limit is configured. -/
def Limited : Prop := ¬ (system.available.requests = none ∧ system.available.tokens = none)

instance : Decidable system.Limited := inferInstanceAs (Decidable (¬ _))

/-- Where a denied call ends the loop of a pass that has started nothing, a limit is configured, and the other
calls that are queued were denied since the last replenishment or ask for more than there is. -/
def Justified : RateOp → Prop
  | .ask i => ∀ pass ∈ system.passes[i]?, ∀ call, pass.phase = .asking call → ¬ system.Permits call →
    system.queue.length ≤ pass.deferred → pass.eventsProcessed = 0 → 0 < system.availableCapacity →
      system.Limited ∧ ∀ other ∈ system.queue, other ∈ system.denied ∨ ¬ system.available.Allows other
  | _ => True

/-! ## Permission -/

variable {system}
variable {call : ApiCall}

theorem requestPermission_of_permits (h : system.Permits call) : (system.requestPermission call).1 = true := by
  unfold requestPermission
  unfold Permits at h
  split at h
  · next hnone => rw [if_pos hnone, decide_eq_true h]
  · next hlimited => rw [if_neg hlimited, if_pos h]

/-- A denial changes no budget. -/
theorem requestPermission_of_not_permits (h : ¬ system.Permits call) :
    system.requestPermission call = (false, system.available) := by
  unfold requestPermission
  unfold Permits at h
  split at h
  · next hnone => rw [if_pos hnone, decide_eq_false h]
  · next hlimited => rw [if_neg hlimited, if_neg h]

/-- A grant charges both budgets. -/
theorem available_of_permits (h : system.Permits call) :
    (system.requestPermission call).2 = system.available.charge call := by
  unfold requestPermission
  unfold Permits at h
  split at h
  · next hnone =>
    rw [if_pos hnone]
    change system.available = ⟨system.available.requests.map _, system.available.tokens.map _⟩
    rw [hnone.1, hnone.2]
    exact congrArg₂ Available.mk hnone.1 hnone.2
  · next hlimited => rw [if_neg hlimited, if_pos h]

/-! ## The invariant -/

variable (system)

/-- What is left is what was not granted, and the denied calls ask for more. -/
structure Accounted : Prop where
  requests : system.available.requests = system.limitRequests.map fun limit : ℕ ↦
    (limit : ℤ) - system.granted.length
  tokens : system.available.tokens = system.limitTokens.map fun limit : ℕ ↦
    (limit : ℤ) - totalTokens system.granted
  requestsLeft : ∀ requests ∈ system.available.requests, 0 ≤ requests
  tokensLeft : ∀ tokens ∈ system.available.tokens, 0 ≤ tokens
  denied : system.Limited → ∀ call ∈ system.denied, ¬ system.available.Allows call

variable {system} {system' : RateLimited}

theorem Accounted.budgeted (h : system.Accounted) : system.Budgeted where
  requests := by
    intro limit hlimit
    have hleft : (0 : ℤ) ≤ limit - system.granted.length := by
      apply h.requestsLeft
      rw [h.requests]
      exact Option.mem_map_of_mem _ hlimit
    omega
  tokens := by
    intro limit hlimit
    have hleft : (0 : ℤ) ≤ limit - totalTokens system.granted := by
      apply h.tokensLeft
      rw [h.tokens]
      exact Option.mem_map_of_mem _ hlimit
    omega
  requestsLeft := h.requestsLeft
  tokensLeft := h.tokensLeft

/-- A step that leaves the budgets and what was granted, and denies no call that is allowed. -/
theorem Accounted.keep (h : system.Accounted) (hrequests : system'.limitRequests = system.limitRequests)
    (htokens : system'.limitTokens = system.limitTokens) (havailable : system'.available = system.available)
    (hgranted : system'.granted = system.granted)
    (hdenied : system.Limited → ∀ call ∈ system'.denied, ¬ system.available.Allows call) :
    system'.Accounted where
  requests := by
    rw [havailable, hrequests, hgranted]
    exact h.requests
  tokens := by
    rw [havailable, htokens, hgranted]
    exact h.tokens
  requestsLeft := havailable ▸ h.requestsLeft
  tokensLeft := havailable ▸ h.tokensLeft
  denied := by
    unfold Limited
    rw [havailable]
    exact hdenied

theorem accounted_init (queueCapacity : ℕ) (limitRequests limitTokens : Option ℕ) :
    (init queueCapacity limitRequests limitTokens).Accounted where
  requests := by
    refine congrArg (Option.map · limitRequests) (funext fun limit ↦ ?_)
    exact (Int.sub_zero _).symm
  tokens := by
    refine congrArg (Option.map · limitTokens) (funext fun limit ↦ ?_)
    exact (Int.sub_zero _).symm
  requestsLeft := by
    intro requests hrequests
    obtain ⟨limit, -, rfl⟩ := Option.mem_map.1 hrequests
    exact Int.natCast_nonneg limit
  tokensLeft := by
    intro tokens htokens
    obtain ⟨limit, -, rfl⟩ := Option.mem_map.1 htokens
    exact Int.natCast_nonneg limit
  denied := fun _ call hcall ↦ absurd hcall List.not_mem_nil

theorem Accounted.replenish (h : system.Accounted) : system.replenish.Accounted := by
  have hstart : system.replenish.available =
      ⟨system.limitRequests.map fun limit : ℕ ↦ (limit : ℤ),
        system.limitTokens.map fun limit : ℕ ↦ (limit : ℤ)⟩ := by
    unfold RateLimited.replenish
    have hrequests := h.requests
    have htokens := h.tokens
    cases hr : system.limitRequests <;> cases ht : system.limitTokens <;>
      rw [hr] at hrequests <;> rw [ht] at htokens <;> simp [hrequests, htokens]
  have hinit := accounted_init system.queueCapacity system.limitRequests system.limitTokens
  exact hinit.keep rfl rfl hstart rfl hinit.denied

theorem Accounted.grant (h : system.Accounted) (hpermits : system.Permits call) (i : ℕ) (pass : ProcessPass) :
    (system.grant i (system.available.charge call) call pass).Accounted := by
  have hallows : system.available.Allows call := by
    unfold Permits at hpermits
    split at hpermits
    · next hnone =>
      constructor
      · rw [hnone.1]
        exact fun requests hrequests ↦ absurd hrequests (Option.not_mem_none requests)
      · rw [hnone.2]
        exact fun tokens htokens ↦ absurd htokens (Option.not_mem_none tokens)
    · exact hpermits
  constructor
  case requests =>
    change system.available.requests.map _ = system.limitRequests.map fun limit : ℕ ↦
      (limit : ℤ) - ((system.granted ++ [call]).length : ℕ)
    rw [h.requests, Option.map_map]
    refine congrArg (Option.map · system.limitRequests) (funext fun limit ↦ ?_)
    rw [Function.comp_apply, List.length_append, List.length_singleton]
    omega
  case tokens =>
    change (system.available.charge call).tokens = system.limitTokens.map fun limit : ℕ ↦
      (limit : ℤ) - totalTokens (system.granted ++ [call])
    rw [Available.tokens_charge, h.tokens, Option.map_map]
    refine congrArg (Option.map · system.limitTokens) (funext fun limit ↦ ?_)
    rw [Function.comp_apply, totalTokens_concat]
    omega
  case requestsLeft =>
    intro requests hrequests
    obtain ⟨before, hbefore, rfl⟩ := Option.mem_map.1 hrequests
    exact Int.sub_nonneg_of_le (hallows.1 before hbefore)
  case tokensLeft =>
    intro tokens htokens
    change tokens ∈ (system.available.charge call).tokens at htokens
    rw [Available.tokens_charge] at htokens
    obtain ⟨before, hbefore, rfl⟩ := Option.mem_map.1 htokens
    have hleft := h.tokensLeft before hbefore
    have hneeds := hallows.2 before hbefore
    omega
  case denied =>
    intro hlimited other hother hcharged
    have hlimited' : system.Limited := by
      intro hnone
      apply hlimited
      change system.available.requests.map _ = none ∧ system.available.tokens.map _ = none
      rw [hnone.1, hnone.2]
      exact ⟨rfl, rfl⟩
    exact h.denied hlimited' other hother (Available.allows_of_charge hcharged)

/-! ## Steps -/

variable {i : ℕ} {pass : ProcessPass}

theorem exec_ask (hpass : system.passes[i]? = some pass) (hphase : pass.phase = .asking call) : system.exec (.ask i) =
      if system.Permits call then system.grant i (system.available.charge call) call pass
      else system.defer i call pass := by
  rw [exec, onPass, hpass]
  by_cases hpermits : system.Permits call
  · have hanswer : system.requestPermission call = (true, system.available.charge call) :=
      Prod.ext (requestPermission_of_permits hpermits) (available_of_permits hpermits)
    simp only [ask, hphase, hanswer]
    rw [if_pos hpermits]
  · simp only [ask, hphase, requestPermission_of_not_permits hpermits]
    rw [if_neg hpermits]

theorem exec_ask_of_idle (h : ∀ pass ∈ system.passes[i]?, ∀ call, pass.phase ≠ .asking call) :
    system.exec (.ask i) = system := by
  rw [exec, onPass]
  split
  · next pass hpass =>
    unfold ask
    split
    · next call hphase => exact absurd hphase (h pass hpass call)
    · rfl
  · rfl

/-- Either a pass asks for a call, or nothing happens. -/
theorem asking_or_idle (system : RateLimited) (i : ℕ) :
    (∃ pass call, system.passes[i]? = some pass ∧ pass.phase = .asking call) ∨
      ∀ pass ∈ system.passes[i]?, ∀ call, pass.phase ≠ .asking call := by
  by_cases h : ∃ pass call, system.passes[i]? = some pass ∧ pass.phase = .asking call
  · exact .inl h
  · exact .inr fun pass hpass call hphase ↦ h ⟨pass, call, hpass, hphase⟩

theorem Accounted.onPass (h : system.Accounted) {step : ProcessPass → RateLimited}
    (hstep : ∀ pass, (step pass).Accounted) : (system.onPass i step).Accounted := by
  unfold RateLimited.onPass
  split
  · exact hstep _
  · exact h

/-- The queue and the denials of a deferral. -/
theorem Accounted.deferring (h : system.Accounted) (hdenied : ¬ system.Permits call) :
    ({ system.enqueue call with denied := system.denied ++ [call] } : RateLimited).Accounted := by
  refine h.keep rfl rfl rfl rfl ?_
  intro hlimited other hother
  rcases List.mem_append.1 hother with hold | hnew
  · exact h.denied hlimited other hold
  · cases List.mem_singleton.1 hnew
    unfold Permits at hdenied
    rw [if_neg hlimited] at hdenied
    exact hdenied

/-- Every step keeps the account of the budgets. -/
theorem Accounted.exec (h : system.Accounted) (op : RateOp) : (system.exec op).Accounted := by
  cases op with
  | enqueue call => exact h.keep rfl rfl rfl rfl h.denied
  | replenish => exact h.replenish
  | process => exact h.keep rfl rfl rfl rfl h.denied
  | take i =>
    apply h.onPass
    intro pass
    unfold RateLimited.take
    split
    · split
      · exact h.keep rfl rfl rfl rfl h.denied
      · exact h.keep rfl rfl rfl rfl h.denied
    · exact h.keep rfl rfl rfl rfl h.denied
    · exact h
  | ask i =>
    rcases asking_or_idle system i with ⟨pass, call, hpass, hphase⟩ | hidle
    · rw [exec_ask hpass hphase]
      split
      · next hpermits => exact h.grant hpermits i pass
      · next hdenied =>
        have hdeferring := h.deferring hdenied
        unfold RateLimited.defer
        simp only
        split
        · exact hdeferring.keep rfl rfl rfl rfl hdeferring.denied
        · exact hdeferring.keep rfl rfl rfl rfl hdeferring.denied
    · rw [exec_ask_of_idle hidle]
      exact h
  | finish i =>
    apply h.onPass
    intro pass
    unfold RateLimited.finish
    split
    · exact h.keep rfl rfl rfl rfl h.denied
    · exact h

/-- A pass leaves its loop with no call queued that is allowed. -/
theorem Progresses.leave (h : system.Progresses) (i : ℕ) (pass : ProcessPass)
    (hleft : 0 < system.availableCapacity → pass.eventsProcessed = 0 → ∀ call ∈ system.queue,
      ¬ system.available.Allows call) : (system.leave i pass).Progresses := by
  intro left hmem
  rcases List.mem_append.1 hmem with hold | hnew
  · exact h left hold
  · cases List.mem_singleton.1 hnew
    exact hleft

/-- What ends the loop of a pass is a deferral, and the calls that are queued then. -/
theorem exec_ask_of_ends (hpass : system.passes[i]? = some pass) (hphase : pass.phase = .asking call)
    (hdenied : ¬ system.Permits call) (hdeferred : system.queue.length ≤ pass.deferred) :
    ∃ pass', pass'.eventsProcessed = pass.eventsProcessed ∧ system.exec (.ask i) =
      ({ system.enqueue call with denied := system.denied ++ [call] } : RateLimited).leave i pass' := by
  rw [exec_ask hpass hphase, if_neg hdenied]
  have hlength : (system.queue ++ [call]).length ≤ pass.deferred + 1 := by
    rw [List.length_append, List.length_singleton]
    exact Nat.succ_le_succ hdeferred
  exact ⟨{ pass with deferred := pass.deferred + 1, phase := .looping }, rfl, if_pos hlength⟩

theorem Progresses.exec (h : system.Progresses) (haccounted : system.Accounted) {op : RateOp}
    (hjustified : system.Justified op) : (system.exec op).Progresses := by
  have honPass : ∀ {i : ℕ} {step : ProcessPass → RateLimited},
      (∀ pass, (step pass).Progresses) → (system.onPass i step).Progresses := by
    intro i step hstep
    unfold RateLimited.onPass
    split
    · exact hstep _
    · exact h
  cases op with
  | take i =>
    apply honPass
    intro pass
    unfold RateLimited.take
    split
    · split
      · exact h
      · next hcapacity => exact h.leave i pass fun hpos ↦ absurd hpos hcapacity
    · next hqueue =>
      apply h.leave i pass
      rw [hqueue]
      exact fun _ _ call hcall ↦ absurd hcall List.not_mem_nil
    · exact h
  | ask i =>
    rcases asking_or_idle system i with ⟨pass, call, hpass, hphase⟩ | hidle
    · by_cases hdenied : system.Permits call
      · rw [exec_ask hpass hphase, if_pos hdenied]
        exact h
      · by_cases hdeferred : system.queue.length ≤ pass.deferred
        · obtain ⟨pass', hprocessed, hexec⟩ := exec_ask_of_ends hpass hphase hdenied hdeferred
          have hbefore :
              ({ system.enqueue call with denied := system.denied ++ [call] } : RateLimited).Progresses := h
          rw [hexec]
          apply hbefore.leave i pass'
          intro hcapacity hstarted other hother hallows
          obtain ⟨hlimited, hothers⟩ := hjustified pass hpass call hphase hdenied hdeferred
            (hprocessed ▸ hstarted) hcapacity
          rcases List.mem_append.1 hother with hqueued | hnew
          · rcases hothers other hqueued with hbefore | hnever
            · exact haccounted.denied hlimited other hbefore hallows
            · exact hnever hallows
          · exact (haccounted.deferring hdenied).denied hlimited other (List.mem_append_right _ hnew) hallows
        · have hlength : ¬ (system.queue ++ [call]).length ≤ pass.deferred + 1 := by
            rw [List.length_append, List.length_singleton]
            exact fun hle ↦ hdeferred (Nat.le_of_succ_le_succ hle)
          have hdefer : system.defer i call pass =
              ({ system.enqueue call with denied := system.denied ++ [call] } : RateLimited).setPass i
                { pass with deferred := pass.deferred + 1, phase := .looping } := if_neg hlength
          rw [exec_ask hpass hphase, if_neg hdenied, hdefer]
          exact h
    · rw [exec_ask_of_idle hidle]
      exact h
  | finish i =>
    apply honPass
    intro pass
    unfold RateLimited.finish
    split
    · exact h
    · exact h
  | _ => exact h

/-- A deferral that is not justified ends the loop of a pass with a call queued that is allowed. -/
theorem not_progresses_exec {op : RateOp} (h : ¬ system.Justified op) : ¬ (system.exec op).Progresses := by
  unfold Justified at h
  split at h
  · next i =>
    simp only [not_forall] at h
    obtain ⟨pass, hpass, call, hphase, hdenied, hdeferred, hstarted, hcapacity, hnot⟩ := h
    obtain ⟨pass', hprocessed, hexec⟩ := exec_ask_of_ends hpass hphase hdenied hdeferred
    rw [hexec]
    intro hprogresses
    have hleft := hprogresses _ (List.mem_append_right _ (List.mem_singleton_self _)) hcapacity
      (hprocessed.trans hstarted)
    apply hnot
    constructor
    · intro hnone
      apply hleft call (List.mem_append_right _ (List.mem_singleton_self call))
      constructor
      · change ∀ requests ∈ system.available.requests, 1 ≤ requests
        rw [hnone.1]
        exact fun requests hrequests ↦ absurd hrequests (Option.not_mem_none requests)
      · change ∀ tokens ∈ system.available.tokens, call.tokens ≠ 0 → (call.tokens : ℤ) ≤ tokens
        rw [hnone.2]
        exact fun tokens htokens ↦ absurd htokens (Option.not_mem_none tokens)
    · exact fun other hother ↦ .inr (hleft other (List.mem_append_left _ hother))
  · exact absurd trivial h

/-! ## Runs -/

/-- In every run the budgets are kept and a denial is free, and the passes leave their loops well in exactly
the runs whose deferrals are all justified. -/
theorem budgeted_and_progresses_iff (queueCapacity : ℕ) (limitRequests limitTokens : Option ℕ)
    (ops : List RateOp) :
    Throughout exec Budgeted (init queueCapacity limitRequests limitTokens) ops ∧
      (∀ (system : RateLimited) (call : ApiCall), (system.requestPermission call).1 = false →
        (system.requestPermission call).2 = system.available) ∧
      (Throughout exec Progresses (init queueCapacity limitRequests limitTokens) ops ↔
        Along exec Justified (init queueCapacity limitRequests limitTokens) ops) := by
  have hinit := accounted_init queueCapacity limitRequests limitTokens
  refine ⟨?_, ?_, ?_⟩
  · apply Throughout.mono fun _ (haccounted : Accounted _) ↦ haccounted.budgeted
    exact Throughout.of_invariant (fun _ op haccounted ↦ haccounted.exec op) hinit
  · intro system call hanswer
    by_cases hpermits : system.Permits call
    · rw [requestPermission_of_permits hpermits] at hanswer
      cases hanswer
    · rw [requestPermission_of_not_permits hpermits]
  · apply throughout_iff_along (I := fun system ↦ system.Accounted ∧ system.Progresses)
    · exact fun _ h ↦ h.2
    · exact fun _ op h hjustified ↦ ⟨h.1.exec op, h.2.exec h.1 hjustified⟩
    · exact fun _ _ _ hjustified ↦ not_progresses_exec hjustified
    · exact ⟨hinit, fun left hleft ↦ absurd hleft List.not_mem_nil⟩

/-- Without limits two calls wait for each other behind a capacity of one. -/
theorem not_progresses_throughout : ¬ Throughout exec Progresses (init 1 none none)
    [.enqueue ⟨0, none⟩, .enqueue ⟨1, none⟩, .process, .take 0, .ask 0, .take 0, .ask 0] := by
  intro h
  have hleft := h.final ⟨1, 0, [⟨0, none⟩, ⟨1, none⟩], ⟨none, none⟩⟩ (by decide +kernel) (by decide) rfl
  exact hleft ⟨0, none⟩ (by decide) (by decide)

end RateLimited

end Lionagi.Service
