import Mathlib.Algebra.Order.Group.Unbundled.Int

/-!
# The rate-limited processor

Passes take calls from one queue, and a call is started when the request and token budgets allow it, which are
charged together under a lock. A denied call goes back to the queue, and a pass leaves its loop when it has
deferred as many calls as are queued since its last grant. A replenisher sets both budgets to their limits from
time to time and starts a pass itself. Without limits the permission reads the length of the queue.
-/

namespace Lionagi.Service

/-- A call, which may need no tokens. -/
structure ApiCall where
  id : ℕ
  requiredTokens : Option ℕ
  deriving DecidableEq

def ApiCall.tokens (call : ApiCall) : ℕ := call.requiredTokens.getD 0

/-- What is left of the budgets that are limited. -/
structure Available where
  requests : Option ℤ
  tokens : Option ℤ
  deriving DecidableEq

/-- Where a pass is: at the test of its loop, awaiting the permission of a call, or past the loop. -/
inductive PassPhase where
  | looping
  | asking (call : ApiCall)
  | returning
  | returned
  deriving DecidableEq

structure ProcessPass where
  eventsProcessed : ℕ := 0
  deferred : ℕ := 0
  phase : PassPhase := .looping
  deriving DecidableEq

/-- What a pass leaves its loop with: the capacity, the calls that it has started, the queue and the budgets. -/
structure LoopExit where
  capacity : ℤ
  started : ℕ
  queue : List ApiCall
  available : Available
  deriving DecidableEq

/-- The processor and its passes, with the calls granted and denied since the last replenishment, and the
passes that left their loops. -/
structure RateLimited where
  queueCapacity : ℕ
  limitRequests : Option ℕ
  limitTokens : Option ℕ
  queue : List ApiCall := []
  availableCapacity : ℤ
  available : Available
  passes : List ProcessPass := []
  granted : List ApiCall := []
  denied : List ApiCall := []
  exits : List LoopExit := []

inductive RateOp where
  | enqueue (call : ApiCall)
  | replenish
  | process
  | take (pass : ℕ)
  | ask (pass : ℕ)
  | finish (pass : ℕ)

namespace Available

/-- Both budgets allow the call. -/
def Allows (available : Available) (call : ApiCall) : Prop :=
  (∀ requests ∈ available.requests, 1 ≤ requests) ∧
    ∀ tokens ∈ available.tokens, call.tokens ≠ 0 → (call.tokens : ℤ) ≤ tokens

instance (available : Available) (call : ApiCall) : Decidable (available.Allows call) :=
  inferInstanceAs (Decidable (_ ∧ _))

def charge (available : Available) (call : ApiCall) : Available where
  requests := available.requests.map fun requests ↦ requests - 1
  tokens := available.tokens.map fun tokens ↦ if call.tokens ≠ 0 then tokens - call.tokens else tokens

end Available

namespace RateLimited

def init (queueCapacity : ℕ) (limitRequests limitTokens : Option ℕ) : RateLimited where
  queueCapacity := queueCapacity
  limitRequests := limitRequests
  limitTokens := limitTokens
  availableCapacity := queueCapacity
  available := ⟨limitRequests.map fun limit : ℕ ↦ (limit : ℤ), limitTokens.map fun limit : ℕ ↦ (limit : ℤ)⟩

variable (system : RateLimited) (i : ℕ)

def enqueue (call : ApiCall) : RateLimited := { system with queue := system.queue ++ [call] }

/-- Whether the call is started, and what is left then. -/
def requestPermission (call : ApiCall) : Bool × Available :=
  if system.available.requests = none ∧ system.available.tokens = none then
    (decide (system.queue.length < system.queueCapacity), system.available)
  else if system.available.Allows call then (true, system.available.charge call)
  else (false, system.available)

/-- The budgets that are limited are set to their limits. -/
def replenish : RateLimited :=
  { system with
    available := {
      requests := match system.limitRequests with
        | some limit => some (limit : ℤ)
        | none => system.available.requests
      tokens := match system.limitTokens with
        | some limit => some (limit : ℤ)
        | none => system.available.tokens }
    granted := []
    denied := [] }

def process : RateLimited := { system with passes := system.passes ++ [{}] }

def setPass (pass : ProcessPass) : RateLimited := { system with passes := system.passes.set i pass }

/-- The pass leaves its loop. -/
def leave (pass : ProcessPass) : RateLimited :=
  { system.setPass i { pass with phase := .returning } with
    exits := system.exits ++
      [⟨system.availableCapacity, pass.eventsProcessed, system.queue, system.available⟩] }

/-- The test of the loop, and where it holds the next call. -/
def take (pass : ProcessPass) : RateLimited :=
  match pass.phase, system.queue with
  | .looping, call :: queue =>
    if 0 < system.availableCapacity then
      { system.setPass i { pass with phase := .asking call } with queue := queue }
    else system.leave i pass
  | .looping, [] => system.leave i pass
  | _, _ => system

/-- The call is started, with what is left of the budgets. -/
def grant (available : Available) (call : ApiCall) (pass : ProcessPass) : RateLimited :=
  { system.setPass i { eventsProcessed := pass.eventsProcessed + 1, deferred := 0 } with
    available := available
    availableCapacity := system.availableCapacity - 1
    granted := system.granted ++ [call] }

/-- The call goes back to the queue, and the pass goes on or has deferred all that is queued. -/
def defer (call : ApiCall) (pass : ProcessPass) : RateLimited :=
  let deferring := { system.enqueue call with denied := system.denied ++ [call] }
  let pass := { pass with deferred := pass.deferred + 1, phase := .looping }
  if deferring.queue.length ≤ pass.deferred then deferring.leave i pass else deferring.setPass i pass

def ask (pass : ProcessPass) : RateLimited :=
  match pass.phase with
  | .asking call =>
    match system.requestPermission call with
    | (true, available) => system.grant i available call pass
    | (false, available) => { system with available := available }.defer i call pass
  | _ => system

/-- The calls that the pass has started are done. -/
def finish (pass : ProcessPass) : RateLimited :=
  match pass.phase with
  | .returning =>
    { system.setPass i { pass with phase := .returned } with
      availableCapacity :=
        if 0 < pass.eventsProcessed then system.queueCapacity else system.availableCapacity }
  | _ => system

def onPass (step : ProcessPass → RateLimited) : RateLimited :=
  match system.passes[i]? with
  | some pass => step pass
  | none => system

/-- One step; what is not enabled changes nothing. -/
def exec (system : RateLimited) : RateOp → RateLimited
  | .enqueue call => system.enqueue call
  | .replenish => system.replenish
  | .process => system.process
  | .take i => system.onPass i (system.take i)
  | .ask i => system.onPass i (system.ask i)
  | .finish i => system.onPass i (system.finish i)

end RateLimited

end Lionagi.Service
