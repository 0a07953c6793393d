import Lionagi.Library.Processes
import Lionagi.Library.Transition
import Lionagi.Service.CircuitBreaker

/-!
# Runs of the circuit breaker

No function starts too early and not too many start in one half-open period, in every run. Neither the place of
a call that ends without an outcome is given back, nor is the outcome of a call from before the half-open period
told apart: the half-open state is left by its own calls and is never a dead end exactly in the runs without.
-/

namespace Lionagi.Service

open Transition

variable {ε τ : Type*}

namespace CircuitBreaker

variable (breaker : CircuitBreaker ε τ)

/-- A call of the half-open period is running. -/
def Probing : Prop := ∃ call ∈ breaker.calls, call.running = true ∧ call.period = some breaker.periods

/-- The number of functions started in a half-open period. -/
def started (period : ℕ) : ℕ := breaker.calls.countP fun call ↦ call.period = some period

/-! ## The protocol -/

/-- While the circuit is open, a function starts when the recovery time has passed since the last counted
failure. -/
def Gated : BreakerOp ε → Prop
  | .execute now later => breaker.state = .opened → ∀ call, (breaker.execute now later).1 = .ok call →
      ∃ failed, breaker.failures.getLast? = some failed ∧ breaker.recoveryTime ≤ now - failed
  | .finish _ _ _ => True

def Limited : Prop := ∀ period, breaker.started period ≤ breaker.halfOpenMaxCalls

/-- The half-open state is left on the outcome of a call that was started in it. -/
def LeftByOwn (op : BreakerOp ε) : Prop :=
  breaker.state = .halfOpen → (breaker.exec op).state ≠ .halfOpen → ∃ i outcome now call,
    op = .finish i outcome now ∧ breaker.calls[i]? = some call ∧ call.running = true ∧
      call.period = some breaker.periods

/-- When none of its calls runs any more, the half-open state lets the next one through. -/
def NotWedged : Prop :=
  breaker.state = .halfOpen → ¬ breaker.Probing → ∀ now later, ∃ call, (breaker.execute now later).1 = .ok call

/-- In the half-open state, a call whose outcome is recorded is of that period, and the last call of the period
does not end without an outcome when all the places are taken. -/
def Justified : BreakerOp ε → Prop
  | .execute _ _ => True
  | .finish i outcome _ => breaker.state = .halfOpen → ∀ call, breaker.calls[i]? = some call →
      call.running = true → if breaker.Counts outcome then call.period = some breaker.periods
        else call.period = some breaker.periods → breaker.halfOpenCalls < breaker.halfOpenMaxCalls ∨
          ∃ j other, j ≠ i ∧ breaker.calls[j]? = some other ∧ other.running = true ∧
            other.period = some breaker.periods

/-! ## Steps -/

variable {breaker}

/-- A call is turned away, or it starts in the closed state, in the half-open one while there is a place, or
after the recovery time, as the first one of a half-open period. -/
theorem execute_cases (now later : ℚ) :
    (breaker.execute now later =
          (.error ⟨breaker.recoveryTime - (later - breaker.lastFailureTime)⟩, breaker.reject) ∧
        (breaker.state = .halfOpen → breaker.halfOpenMaxCalls ≤ breaker.halfOpenCalls)) ∨
      (breaker.state = .closed ∧ breaker.execute now later = (.ok breaker.calls.length, breaker.start)) ∨
      (breaker.state = .halfOpen ∧ breaker.halfOpenCalls < breaker.halfOpenMaxCalls ∧
        breaker.execute now later = (.ok breaker.calls.length,
          { breaker with halfOpenCalls := breaker.halfOpenCalls + 1 }.start)) ∨
      (breaker.state = .opened ∧ breaker.recoveryTime ≤ now - breaker.lastFailureTime ∧
        breaker.execute now later = (.ok breaker.calls.length,
          { breaker.changeState .halfOpen with halfOpenCalls := 1 }.start)) := by
  unfold execute checkState
  cases hstate : breaker.state with
  | closed =>
    refine .inr (.inl ⟨rfl, ?_⟩)
    simp only [takePlace, hstate, reduceCtorEq, if_false]
  | halfOpen =>
    by_cases hfull : breaker.halfOpenMaxCalls ≤ breaker.halfOpenCalls
    · refine .inl ⟨?_, fun _ ↦ hfull⟩
      simp only [takePlace, hstate, reduceCtorEq, if_false, if_true, if_pos hfull, reject]
    · refine .inr (.inr (.inl ⟨rfl, Nat.lt_of_not_le hfull, ?_⟩))
      simp only [takePlace, hstate, reduceCtorEq, if_false, if_true, if_neg hfull]
  | opened =>
    by_cases hpassed : breaker.recoveryTime ≤ now - breaker.lastFailureTime
    · refine .inr (.inr (.inr ⟨rfl, hpassed, ?_⟩))
      have hplaces : ¬ breaker.halfOpenMaxCalls ≤ 0 := Nat.not_le.2 breaker.maxCalls_pos
      simp only [takePlace, changeState, hstate, reduceCtorEq, if_false, if_true, if_pos hpassed, if_neg hplaces,
        Nat.zero_add]
    · refine .inl ⟨?_, fun hhalf ↦ CircuitState.noConfusion hhalf⟩
      simp only [if_true, if_neg hpassed, reject]

/-- What the outcome of a call may change. -/
structure Settled (breaker settled : CircuitBreaker ε τ) (outcome : CallOutcome ε) : Prop where
  config : settled.toBreakerConfig = breaker.toBreakerConfig
  calls : settled.calls = breaker.calls
  periods : settled.periods = breaker.periods
  halfOpenCalls : settled.halfOpenCalls = breaker.halfOpenCalls
  state : settled.state = .halfOpen ↔ breaker.state = .halfOpen ∧ ¬ breaker.Counts outcome
  failures : settled.failures.getLast? = some settled.lastFailureTime ∨
    settled.failures = breaker.failures ∧ settled.lastFailureTime = breaker.lastFailureTime ∧
      (settled.state = .opened → breaker.state = .opened)

theorem settled_self {outcome : CallOutcome ε} (h : ¬ breaker.Counts outcome) : Settled breaker breaker outcome where
  config := rfl
  calls := rfl
  periods := rfl
  halfOpenCalls := rfl
  state := (and_iff_left h).symm
  failures := .inr ⟨rfl, rfl, id⟩

/-- The other states are entered with nothing but the counters changed. -/
theorem changeState_eq {state : CircuitState} (h : state ≠ .halfOpen) : ∃ (failureCount : ℕ) (metrics : BreakerMetrics),
    breaker.changeState state =
      { breaker with state := state, failureCount := failureCount, metrics := metrics } := by
  unfold changeState
  split
  · next hsame => exact ⟨breaker.failureCount, breaker.metrics, by rw [hsame]⟩
  · cases state with
    | halfOpen => exact absurd rfl h
    | closed => exact ⟨_, _, rfl⟩
    | opened => exact ⟨_, _, rfl⟩

theorem settled_succeed : Settled breaker breaker.succeed .returned := by
  have hcounts : breaker.Counts .returned := trivial
  unfold succeed
  extract_lets metrics counted
  split
  · next hhalf =>
    obtain ⟨failureCount, changes, heq⟩ := @changeState_eq _ _ counted .closed (by decide)
    rw [heq]
    exact ⟨rfl, rfl, rfl, rfl, by simp [hcounts], .inr ⟨rfl, rfl, by simp⟩⟩
  · next hother =>
    exact ⟨rfl, rfl, rfl, rfl, iff_of_false hother fun h ↦ h.2 hcounts, .inr ⟨rfl, rfl, id⟩⟩

theorem settled_fail {exception : ε} (h : breaker.Counts (.raised exception)) (now : ℚ) :
    Settled breaker (breaker.fail now) (.raised exception) := by
  unfold fail
  extract_lets metrics counted
  have hlast : counted.failures.getLast? = some now := List.getLast?_concat
  split
  · next hopens =>
    obtain ⟨failureCount, changes, heq⟩ := @changeState_eq _ _ counted .opened (by decide)
    rw [heq]
    exact ⟨rfl, rfl, rfl, rfl, by simp [h], .inl hlast⟩
  · next hstays =>
    have hother : counted.state ≠ .halfOpen := fun hhalf ↦ hstays (.inr hhalf)
    exact ⟨rfl, rfl, rfl, rfl, iff_of_false hother fun hhalf ↦ hhalf.2 h, .inl hlast⟩

theorem settled_settle (outcome : CallOutcome ε) (now : ℚ) :
    Settled breaker (breaker.settle outcome now) outcome := by
  cases outcome with
  | returned => exact settled_succeed
  | cancelled => exact settled_self id
  | raised exception =>
    change Settled breaker (if breaker.excluded exception then breaker else breaker.fail now) _
    split
    · next hexcluded => exact settled_self fun hcounts ↦ absurd hexcluded (Bool.eq_false_iff.1 hcounts)
    · next hcounted => exact settled_fail (Bool.eq_false_iff.2 hcounted) now

/-- A call that runs ends, and with its outcome the breaker settles. A call that does not run has no end. -/
theorem finish_cases (i : ℕ) (outcome : CallOutcome ε) (now : ℚ) :
    ((∀ call, breaker.calls[i]? = some call → call.running = false) ∧ breaker.finish i outcome now = breaker) ∨
      ∃ call, breaker.calls[i]? = some call ∧ call.running = true ∧
        breaker.finish i outcome now = (breaker.endCall i call).settle outcome now := by
  unfold finish
  cases breaker.calls[i]? with
  | none =>
    refine .inl ⟨?_, rfl⟩
    intro call hcall
    cases hcall
  | some call =>
    cases hruns : call.running with
    | false =>
      refine .inl ⟨?_, if_neg (by rw [hruns]; exact Bool.false_ne_true)⟩
      intro other hother
      cases Option.some.inj hother
      exact hruns
    | true => exact .inr ⟨call, rfl, hruns, if_pos hruns⟩

/-! ## The invariant -/

/-- In the half-open state the places taken are the calls of the period, and there is one left or one of the
calls is running. -/
structure Sound (breaker : CircuitBreaker ε τ) : Prop where
  failed : breaker.state = .opened → breaker.failures.getLast? = some breaker.lastFailureTime
  taken : breaker.state = .halfOpen → breaker.started breaker.periods = breaker.halfOpenCalls
  places : breaker.state = .halfOpen → breaker.halfOpenCalls ≤ breaker.halfOpenMaxCalls
  limited : breaker.Limited
  later : ∀ period, breaker.periods < period → breaker.started period = 0

theorem sound_init (config : BreakerConfig ε τ) : (init config).Sound where
  failed h := CircuitState.noConfusion h
  taken h := CircuitState.noConfusion h
  places h := CircuitState.noConfusion h
  limited _ := Nat.zero_le _
  later _ _ := rfl

theorem started_start (period : ℕ) :
    breaker.start.started period = breaker.started period + if breaker.period = some period then 1 else 0 := by
  unfold started start
  rw [List.countP_append, List.countP_singleton]
  simp only [decide_eq_true_eq]

theorem Sound.reject (h : breaker.Sound) : breaker.reject.Sound := ⟨h.failed, h.taken, h.places, h.limited, h.later⟩

/-- A function that starts in the closed state belongs to no half-open period. -/
theorem Sound.start_closed (h : breaker.Sound) (hstate : breaker.state = .closed) : breaker.start.Sound := by
  have hperiod : breaker.period = none := if_neg (by rw [hstate]; decide)
  have hstarted : ∀ period, breaker.start.started period = breaker.started period := by
    intro period
    rw [started_start, hperiod]
    exact Nat.add_zero _
  constructor
  · exact h.failed
  · intro hhalf
    exact (hstarted _).trans (h.taken hhalf)
  · exact h.places
  · intro period
    rw [hstarted]
    exact h.limited period
  · intro period hlater
    rw [hstarted]
    exact h.later period hlater

/-- A function that starts in a half-open period takes one of its places. -/
theorem sound_start {breaker : CircuitBreaker ε τ} (hhalf : breaker.state = .halfOpen)
    (htaken : breaker.started breaker.periods + 1 = breaker.halfOpenCalls)
    (hplaces : breaker.halfOpenCalls ≤ breaker.halfOpenMaxCalls)
    (hlimited : breaker.Limited) (hlater : ∀ period, breaker.periods < period → breaker.started period = 0) :
    breaker.start.Sound := by
  have hperiod : breaker.period = some breaker.periods := if_pos hhalf
  have hown : breaker.start.started breaker.periods = breaker.halfOpenCalls := by
    rw [started_start, hperiod, if_pos rfl, htaken]
  have hother : ∀ period, period ≠ breaker.periods → breaker.start.started period = breaker.started period := by
    intro period hne
    have hne : some breaker.periods ≠ some period := fun heq ↦ hne (Option.some.inj heq).symm
    rw [started_start, hperiod, if_neg hne, Nat.add_zero]
  constructor
  · intro hopened
    exact absurd (hhalf.symm.trans hopened) (by decide)
  · intro _
    exact hown
  · intro _
    exact hplaces
  · intro period
    by_cases heq : period = breaker.periods
    · rw [heq, hown]
      exact hplaces
    · rw [hother period heq]
      exact hlimited period
  · intro period hafter
    rw [hother period (Nat.ne_of_gt hafter)]
    exact hlater period hafter

theorem Sound.execute (h : breaker.Sound) (now later : ℚ) : (breaker.execute now later).2.Sound := by
  rcases breaker.execute_cases now later with ⟨heq, -⟩ | ⟨hstate, heq⟩ | ⟨hstate, hroom, heq⟩ | ⟨hstate, -, heq⟩
  · rw [heq]
    exact h.reject
  · rw [heq]
    exact h.start_closed hstate
  · rw [heq]
    exact sound_start hstate (congrArg (· + 1) (h.taken hstate)) hroom h.limited h.later
  · rw [heq]
    have hchange : breaker.changeState .halfOpen = { breaker with
        state := .halfOpen
        metrics := (breaker.changeState .halfOpen).metrics
        halfOpenCalls := 0
        periods := breaker.periods + 1 } := by
      unfold changeState
      rw [if_neg (by rw [hstate]; decide)]
    rw [hchange]
    refine sound_start rfl ?_ breaker.maxCalls_pos h.limited ?_
    · exact congrArg (· + 1) (h.later (breaker.periods + 1) (Nat.lt_succ_self _))
    · intro period hafter
      exact h.later period (Nat.lt_of_succ_lt hafter)

theorem started_endCall {i : ℕ} {call : GuardedCall} (hcall : breaker.calls[i]? = some call) (period : ℕ) :
    (breaker.endCall i call).started period = breaker.started period :=
  Processes.countP_set_of_eq hcall rfl

theorem Sound.endCall (h : breaker.Sound) {i : ℕ} {call : GuardedCall} (hcall : breaker.calls[i]? = some call) :
    (breaker.endCall i call).Sound where
  failed := h.failed
  taken hhalf := (started_endCall hcall _).trans (h.taken hhalf)
  places := h.places
  limited period := (started_endCall hcall period).symm ▸ h.limited period
  later period hafter := (started_endCall hcall period).trans (h.later period hafter)

theorem Sound.settle (h : breaker.Sound) (outcome : CallOutcome ε) (now : ℚ) :
    (breaker.settle outcome now).Sound := by
  have hsettled : Settled breaker (breaker.settle outcome now) outcome := settled_settle outcome now
  have hstarted : ∀ period, (breaker.settle outcome now).started period = breaker.started period := by
    intro period
    rw [started, started, hsettled.calls]
  constructor
  · intro hopened
    rcases hsettled.failures with hfailed | ⟨hsame, hlast, hstate⟩
    · exact hfailed
    · rw [hsame, hlast]
      exact h.failed (hstate hopened)
  · intro hhalf
    rw [hstarted, hsettled.periods, hsettled.halfOpenCalls]
    exact h.taken (hsettled.state.1 hhalf).1
  · intro hhalf
    rw [hsettled.halfOpenCalls, hsettled.config]
    exact h.places (hsettled.state.1 hhalf).1
  · intro period
    rw [hstarted, hsettled.config]
    exact h.limited period
  · intro period hafter
    rw [hsettled.periods] at hafter
    rw [hstarted]
    exact h.later period hafter

theorem Sound.exec (h : breaker.Sound) (op : BreakerOp ε) : (breaker.exec op).Sound := by
  cases op with
  | execute now later => exact h.execute now later
  | finish i outcome now =>
    change (breaker.finish i outcome now).Sound
    rcases breaker.finish_cases i outcome now with ⟨-, heq⟩ | ⟨call, hcall, -, heq⟩
    · rw [heq]
      exact h
    · rw [heq]
      exact (h.endCall hcall).settle outcome now

/-! ## The half-open state -/

/-- In the half-open state a call of the period is running, or there is a place for the next one. -/
def Lets (breaker : CircuitBreaker ε τ) : Prop :=
  breaker.state = .halfOpen → breaker.Probing ∨ breaker.halfOpenCalls < breaker.halfOpenMaxCalls

theorem notWedged_iff : breaker.NotWedged ↔ breaker.Lets := by
  constructor
  · intro h hhalf
    by_cases hprobing : breaker.Probing
    · exact .inl hprobing
    · obtain ⟨call, hstarts⟩ := h hhalf hprobing 0 0
      rcases breaker.execute_cases 0 0 with ⟨heq, -⟩ | ⟨hstate, -⟩ | ⟨-, hroom, -⟩ | ⟨hstate, -, -⟩
      · rw [heq] at hstarts
        cases hstarts
      · exact absurd (hhalf.symm.trans hstate) (by decide)
      · exact .inr hroom
      · exact absurd (hhalf.symm.trans hstate) (by decide)
  · intro h hhalf hidle now later
    have hroom : breaker.halfOpenCalls < breaker.halfOpenMaxCalls := (h hhalf).resolve_left hidle
    rcases breaker.execute_cases now later with ⟨-, hfull⟩ | ⟨hstate, -⟩ | ⟨-, -, heq⟩ | ⟨hstate, -, -⟩
    · exact absurd (hfull hhalf) (Nat.not_le.2 hroom)
    · exact absurd (hhalf.symm.trans hstate) (by decide)
    · exact ⟨breaker.calls.length, by rw [heq]⟩
    · exact absurd (hhalf.symm.trans hstate) (by decide)

theorem gated_of_sound (h : breaker.Sound) (op : BreakerOp ε) : breaker.Gated op := by
  cases op with
  | finish i outcome now => trivial
  | execute now later =>
    intro hopened call hstarts
    refine ⟨breaker.lastFailureTime, h.failed hopened, ?_⟩
    rcases breaker.execute_cases now later with ⟨heq, -⟩ | ⟨hstate, -⟩ | ⟨hstate, -⟩ | ⟨-, hpassed, -⟩
    · rw [heq] at hstarts
      cases hstarts
    · exact absurd (hopened.symm.trans hstate) (by decide)
    · exact absurd (hopened.symm.trans hstate) (by decide)
    · exact hpassed

/-- A call that starts leaves the half-open state as it is, and a function of the period is running then. -/
theorem lets_execute (h : breaker.Lets) (now later : ℚ) : (breaker.execute now later).2.Lets ∧
    (breaker.state = .halfOpen → (breaker.execute now later).2.state = .halfOpen) := by
  have hprobing : ∀ {admitted : CircuitBreaker ε τ}, admitted.state = .halfOpen → admitted.start.Lets := by
    intro admitted hhalf _
    refine .inl ⟨{ period := admitted.period }, List.mem_concat_self, rfl, ?_⟩
    exact if_pos hhalf
  rcases breaker.execute_cases now later with ⟨heq, -⟩ | ⟨hstate, heq⟩ | ⟨hstate, -, heq⟩ | ⟨hstate, -, heq⟩
  · rw [heq]
    exact ⟨h, id⟩
  · rw [heq]
    exact ⟨fun hhalf ↦ absurd (hhalf.symm.trans hstate) (by decide), id⟩
  · rw [heq]
    exact ⟨hprobing hstate, fun _ ↦ hstate⟩
  · rw [heq]
    have hhalf : (breaker.changeState .halfOpen).state = .halfOpen := by
      unfold changeState
      rw [if_neg (by rw [hstate]; decide)]
    exact ⟨hprobing hhalf, fun _ ↦ hhalf⟩

/-- After the end of a call, the period is probed by the others. -/
theorem probing_finish (i : ℕ) (call : GuardedCall) (outcome : CallOutcome ε) (now : ℚ) :
    ((breaker.endCall i call).settle outcome now).Probing ↔ ∃ j other, j ≠ i ∧ breaker.calls[j]? = some other ∧
      other.running = true ∧ other.period = some breaker.periods := by
  have hsettled : Settled (breaker.endCall i call) ((breaker.endCall i call).settle outcome now) outcome :=
    settled_settle outcome now
  rw [Probing, hsettled.calls, hsettled.periods]
  constructor
  · rintro ⟨other, hmem, hruns, hperiod⟩
    obtain ⟨j, hj⟩ := List.mem_iff_getElem?.1 hmem
    rcases Processes.getElem?_set_cases hj with ⟨-, rfl⟩ | ⟨hne, hj⟩
    · cases hruns
    · exact ⟨j, other, hne, hj, hruns, hperiod⟩
  · rintro ⟨j, other, hne, hj, hruns, hperiod⟩
    refine ⟨other, List.mem_of_getElem? (i := j) ?_, hruns, hperiod⟩
    exact (List.getElem?_set_ne hne.symm).trans hj

/-- The half-open state is left rightly and is no dead end after an operation, when it was none before, exactly
when the operation is justified. -/
theorem justified_iff (h : breaker.Lets) (op : BreakerOp ε) :
    breaker.LeftByOwn op ∧ (breaker.exec op).Lets ↔ breaker.Justified op := by
  cases op with
  | execute now later =>
    obtain ⟨hlets, hstays⟩ := lets_execute h now later
    exact iff_of_true ⟨fun hhalf hleft ↦ absurd (hstays hhalf) hleft, hlets⟩ trivial
  | finish i outcome now =>
    rw [LeftByOwn, exec]
    rcases breaker.finish_cases i outcome now with ⟨hends, heq⟩ | ⟨call, hcall, hruns, heq⟩
    · rw [heq]
      refine iff_of_true ⟨fun hhalf hleft ↦ absurd hhalf hleft, h⟩ fun hhalf call hcall hruns ↦ ?_
      rw [hends call hcall] at hruns
      cases hruns
    rw [heq]
    have hsettled : Settled (breaker.endCall i call) ((breaker.endCall i call).settle outcome now) outcome :=
      settled_settle outcome now
    by_cases hhalf : breaker.state = .halfOpen
    swap
    · have hother : ¬ ((breaker.endCall i call).settle outcome now).state = .halfOpen :=
        fun hstate ↦ hhalf (hsettled.state.1 hstate).1
      exact iff_of_true ⟨fun hstate ↦ absurd hstate hhalf, fun hstate ↦ absurd hstate hother⟩
        fun hstate ↦ absurd hstate hhalf
    by_cases hcounts : breaker.Counts outcome
    · have hleft : ¬ ((breaker.endCall i call).settle outcome now).state = .halfOpen :=
        fun hstate ↦ (hsettled.state.1 hstate).2 hcounts
      constructor
      · rintro ⟨hown, -⟩ - other hother -
        rw [if_pos hcounts]
        obtain ⟨j, outcome', now', own, hop, hj, -, hperiod⟩ := hown hhalf hleft
        cases hop
        rw [← Option.some.inj (hj.symm.trans hother)]
        exact hperiod
      · intro hjustified
        have hperiod := hjustified hhalf call hcall hruns
        rw [if_pos hcounts] at hperiod
        exact ⟨fun _ _ ↦ ⟨i, outcome, now, call, rfl, hcall, hruns, hperiod⟩, fun hstate ↦ absurd hstate hleft⟩
    · have hstays : ((breaker.endCall i call).settle outcome now).state = .halfOpen :=
        hsettled.state.2 ⟨hhalf, hcounts⟩
      constructor
      · rintro ⟨-, hlets⟩ - other - -
        rw [if_neg hcounts]
        intro _
        rcases hlets hstays with hprobing | hroom
        · exact .inr ((probing_finish i call outcome now).1 hprobing)
        · rw [hsettled.halfOpenCalls, hsettled.config] at hroom
          exact .inl hroom
      · intro hjustified
        have hothers := hjustified hhalf call hcall hruns
        rw [if_neg hcounts] at hothers
        refine ⟨fun _ hleft ↦ absurd hstays hleft, fun _ ↦ ?_⟩
        rw [probing_finish i call, hsettled.halfOpenCalls, hsettled.config]
        by_cases hperiod : call.period = some breaker.periods
        · exact (hothers hperiod).symm
        · rcases h hhalf with ⟨other, hmem, hother, hcurrent⟩ | hroom
          · obtain ⟨j, hj⟩ := List.mem_iff_getElem?.1 hmem
            refine .inl ⟨j, other, ?_, hj, hother, hcurrent⟩
            rintro rfl
            rw [Option.some.inj (hcall.symm.trans hj)] at hperiod
            exact hperiod hcurrent
          · exact .inr hroom

/-! ## Runs -/

/-- In every run functions start in time and in number. Every half-open period ends by its own calls, and can
end, in the runs whose operations are justified and in no others. -/
theorem protocol_iff_justified (config : BreakerConfig ε τ) (ops : List (BreakerOp ε)) :
    (Along exec Gated (init config) ops ∧ Throughout exec Limited (init config) ops) ∧
      (Along exec LeftByOwn (init config) ops ∧ Throughout exec NotWedged (init config) ops ↔
        Along exec Justified (init config) ops) := by
  have hsound : Throughout exec Sound (init config) ops :=
    Throughout.of_invariant (fun breaker op h ↦ h.exec op) (sound_init config)
  have hgated : Along exec Gated (init config) ops :=
    Along.of_invariant (D := fun _ _ ↦ True) (fun _ op h _ ↦ gated_of_sound h op) (fun _ op h _ ↦ h.exec op)
      (sound_init config) (Along.of_forall (fun _ _ ↦ trivial) _ ops)
  have hlets : (init config).Lets := fun hhalf ↦ CircuitState.noConfusion hhalf
  refine ⟨⟨hgated, hsound.mono fun breaker h ↦ h.limited⟩, ?_⟩
  calc Along exec LeftByOwn (init config) ops ∧ Throughout exec NotWedged (init config) ops
      ↔ Along exec LeftByOwn (init config) ops ∧
          Along exec (fun breaker op ↦ (breaker.exec op).NotWedged) (init config) ops := by
        rw [throughout_iff_and_along, and_iff_right (notWedged_iff.2 hlets)]
    _ ↔ Along exec (fun breaker op ↦ breaker.LeftByOwn op ∧ (breaker.exec op).NotWedged) (init config) ops :=
        along_and.symm
    _ ↔ Along exec Justified (init config) ops := by
        apply along_iff_along (I := Lets) _ _ hlets
        · intro breaker op h
          rw [notWedged_iff]
          exact justified_iff h op
        · intro breaker op h hjustified
          exact ((justified_iff h op).2 hjustified).2

/-- One failure opens the circuit, and one call probes it. -/
def singleProbe : BreakerConfig Unit Unit where
  failureThreshold := 1
  isInstance _ _ := false
  threshold_pos := Nat.le_refl 1
  maxCalls_pos := Nat.le_refl 1

/-- The probe is cancelled. -/
def cancelledProbe : List (BreakerOp Unit) :=
  [.execute 0 0, .finish 0 (.raised ()) 1, .execute 31 31, .finish 1 .cancelled 32]

/-- A call from before the failure returns while the probe is running. -/
def lateReturn : List (BreakerOp Unit) :=
  [.execute 0 0, .execute 0 0, .finish 0 (.raised ()) 1, .execute 31 31, .finish 1 .returned 32]

/-- After a cancelled probe no call is let through any more, and a late return closes the circuit. -/
theorem not_protocol : ¬ Throughout exec NotWedged (init singleProbe) cancelledProbe ∧
    ¬ Along exec LeftByOwn (init singleProbe) lateReturn := by
  constructor
  · intro h
    have hlets : (cancelledProbe.foldl exec (init singleProbe)).Lets := notWedged_iff.1 h.final
    rcases hlets (by decide +kernel) with ⟨call, hmem, hprobing⟩ | hroom
    · revert call
      decide +kernel
    · revert hroom
      decide +kernel
  · rintro ⟨-, -, -, -, hleft, -⟩
    obtain ⟨i, outcome, now, call, hop, hcall, -, hperiod⟩ := hleft (by decide +kernel) (by decide +kernel)
    cases hop
    have hstale : call.period = none := congrArg (fun call ↦ call.bind GuardedCall.period)
      (hcall.symm.trans (by decide +kernel : _ = some { period := none }))
    rw [hstale] at hperiod
    cases hperiod

end CircuitBreaker

end Lionagi.Service
