import Mathlib.Algebra.Order.Field.Rat

/-!
# The circuit breaker

The state is read and changed under a lock before a call and again after it, with any other calls in between.
In the half-open state only so many calls are let through, and what they come to closes or opens the circuit.
An exception of an excluded type is not counted, and neither is a cancellation, which the handler does not see.
-/

namespace Lionagi.Service

inductive CircuitState where
  | closed
  | opened
  | halfOpen
  deriving DecidableEq

/-- What a breaker is built with. An exception of type `ε` may be an instance of an excluded one. -/
structure BreakerConfig (ε τ : Type*) where
  failureThreshold : ℕ := 5
  recoveryTime : ℚ := 30
  halfOpenMaxCalls : ℕ := 1
  excludedExceptions : List τ := []
  isInstance : ε → τ → Bool
  threshold_pos : 1 ≤ failureThreshold
  maxCalls_pos : 1 ≤ halfOpenMaxCalls

structure BreakerMetrics where
  successCount : ℕ := 0
  failureCount : ℕ := 0
  rejectedCount : ℕ := 0
  stateChanges : List (CircuitState × CircuitState) := []
  deriving DecidableEq

/-- A call that was let through, with the half-open period in which it was. -/
structure GuardedCall where
  period : Option ℕ
  running : Bool := true
  deriving DecidableEq

/-- The breaker with the calls that it let through. The half-open periods are numbered, and the times of the
counted failures are kept. -/
structure CircuitBreaker (ε τ : Type*) extends BreakerConfig ε τ where
  failureCount : ℕ := 0
  state : CircuitState := .closed
  lastFailureTime : ℚ := 0
  halfOpenCalls : ℕ := 0
  metrics : BreakerMetrics := {}
  calls : List GuardedCall := []
  periods : ℕ := 0
  failures : List ℚ := []

structure CircuitBreakerOpenError where
  retryAfter : ℚ
  deriving DecidableEq

/-- How the function of a call ends. -/
inductive CallOutcome (ε : Type*) where
  | returned
  | raised (exception : ε)
  | cancelled

/-- A call takes the lock at the first time and, when it is turned away, reads the clock again. Later its
function ends, and it takes the lock again. -/
inductive BreakerOp (ε : Type*) where
  | execute (now later : ℚ)
  | finish (call : ℕ) (outcome : CallOutcome ε) (now : ℚ)

def BreakerConfig.excluded {ε τ : Type*} (config : BreakerConfig ε τ) (exception : ε) : Bool :=
  config.excludedExceptions.any fun type ↦ config.isInstance exception type

/-- The outcome is recorded, which an excluded exception and a cancellation are not. -/
def BreakerConfig.Counts {ε τ : Type*} (config : BreakerConfig ε τ) : CallOutcome ε → Prop
  | .returned => True
  | .raised exception => config.excluded exception = false
  | .cancelled => False

instance {ε τ : Type*} (config : BreakerConfig ε τ) : DecidablePred config.Counts
  | .returned => inferInstanceAs (Decidable True)
  | .raised exception => inferInstanceAs (Decidable (config.excluded exception = false))
  | .cancelled => inferInstanceAs (Decidable False)

namespace CircuitBreaker

variable {ε τ : Type*} (breaker : CircuitBreaker ε τ)

def init (config : BreakerConfig ε τ) : CircuitBreaker ε τ := { config with }

def changeState (state : CircuitState) : CircuitBreaker ε τ :=
  if state = breaker.state then breaker
  else
    let changed := { breaker with
      state := state
      metrics := { breaker.metrics with
        stateChanges := breaker.metrics.stateChanges ++ [(breaker.state, state)] } }
    match state with
    | .halfOpen => { changed with halfOpenCalls := 0, periods := breaker.periods + 1 }
    | .closed => { changed with failureCount := 0 }
    | .opened => changed

def reject : CircuitBreaker ε τ :=
  { breaker with metrics := { breaker.metrics with rejectedCount := breaker.metrics.rejectedCount + 1 } }

/-- In the half-open state a call takes one of the places. -/
def takePlace : Bool × CircuitBreaker ε τ :=
  if breaker.state = .halfOpen then
    if breaker.halfOpenMaxCalls ≤ breaker.halfOpenCalls then (false, breaker.reject)
    else (true, { breaker with halfOpenCalls := breaker.halfOpenCalls + 1 })
  else (true, breaker)

def checkState (now : ℚ) : Bool × CircuitBreaker ε τ :=
  if breaker.state = .opened then
    if breaker.recoveryTime ≤ now - breaker.lastFailureTime then (breaker.changeState .halfOpen).takePlace
    else (false, breaker.reject)
  else breaker.takePlace

/-- The half-open period, when there is one. -/
def period : Option ℕ := if breaker.state = .halfOpen then some breaker.periods else none

def start : CircuitBreaker ε τ := { breaker with calls := breaker.calls ++ [{ period := breaker.period }] }

/-- The call up to the start of its function, whose place in the list of calls it answers. -/
def execute (now later : ℚ) : Except CircuitBreakerOpenError ℕ × CircuitBreaker ε τ :=
  match breaker.checkState now with
  | (true, admitted) => (.ok breaker.calls.length, admitted.start)
  | (false, rejected) => (.error ⟨rejected.recoveryTime - (later - rejected.lastFailureTime)⟩, rejected)

def succeed : CircuitBreaker ε τ :=
  let counted := { breaker with
    metrics := { breaker.metrics with successCount := breaker.metrics.successCount + 1 } }
  if counted.state = .halfOpen then counted.changeState .closed else counted

def fail (now : ℚ) : CircuitBreaker ε τ :=
  let counted := { breaker with
    failureCount := breaker.failureCount + 1
    lastFailureTime := now
    metrics := { breaker.metrics with failureCount := breaker.metrics.failureCount + 1 }
    failures := breaker.failures ++ [now] }
  if counted.state = .closed ∧ counted.failureThreshold ≤ counted.failureCount ∨ counted.state = .halfOpen then
    counted.changeState .opened
  else counted

def settle (outcome : CallOutcome ε) (now : ℚ) : CircuitBreaker ε τ :=
  match outcome with
  | .returned => breaker.succeed
  | .raised exception => if breaker.excluded exception then breaker else breaker.fail now
  | .cancelled => breaker

/-- The call runs no more. -/
def endCall (i : ℕ) (call : GuardedCall) : CircuitBreaker ε τ :=
  { breaker with calls := breaker.calls.set i { call with running := false } }

/-- The call after its function has ended. -/
def finish (i : ℕ) (outcome : CallOutcome ε) (now : ℚ) : CircuitBreaker ε τ :=
  match breaker.calls[i]? with
  | some call => if call.running then (breaker.endCall i call).settle outcome now else breaker
  | none => breaker

/-- One step; the end of a call that does not run changes nothing. -/
def exec (breaker : CircuitBreaker ε τ) : BreakerOp ε → CircuitBreaker ε τ
  | .execute now later => (breaker.execute now later).2
  | .finish i outcome now => breaker.finish i outcome now

end CircuitBreaker

end Lionagi.Service
