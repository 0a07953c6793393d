import Lionagi.Library.OrderedDict

/-!
# Security controls before a tool call

Security controls and the hooks of a user make up the preprocessor of a tool. Each control is asked once in a pass;
it allows the arguments, rewrites them, refuses them or fails, and a failure counts as a refusal. With user hooks
there is a second pass over what they have made of the arguments.
-/

namespace Lionagi.Agent

abbrev Args (V : Type*) := OrderedDict String V

/-- What a hook raises. -/
inductive HookError where
  | controlUnavailable (message : String)
  | permission (message : String)
  | other (type message : String)
  deriving DecidableEq

/-- A hook answers with a dictionary of new arguments or with anything else. -/
structure Hook (V : Type*) where
  name : Option String
  run : String → V → Args V → Except HookError (Option (Args V))

structure GateResult (V : Type*) where
  allowed : Bool
  control : String
  toolName : String
  action : V
  reason : String
  mutatedArgs : Option (Args V) := none
  errored : Bool := false

abbrev GateEvaluator (V : Type*) := String → V → Args V → GateResult V

inductive PreprocessError (V : Type*) where
  | gateDenied (result : GateResult V)
  | hook (error : HookError)

variable {V : Type*}

def adaptLegacyHook (control : String) (hook : Hook V) : GateEvaluator V := fun toolName action args ↦
  match hook.run toolName action args with
  | .error (.controlUnavailable message) =>
    { allowed := false, control, toolName, action, reason := message, errored := true }
  | .error (.permission message) => { allowed := false, control, toolName, action, reason := message }
  | .error (.other _ message) =>
    { allowed := false, control, toolName, action, reason := "evaluator error: " ++ message, errored := true }
  | .ok (some result) =>
    { allowed := true, control, toolName, action, reason := "allow", mutatedArgs := some result }
  | .ok none => { allowed := true, control, toolName, action, reason := "allow" }

/-- The evaluators are asked in order, up to the first one that denies. -/
def runGatePass (toolName : String) : List (GateEvaluator V) → V → Args V → Args V × Option (GateResult V)
  | [], _, args => (args, none)
  | evaluate :: evaluators, action, args =>
    let result := evaluate toolName action args
    if result.allowed then
      match result.mutatedArgs with
      | some mutated => runGatePass toolName evaluators ((mutated.get? "action").getD action) mutated
      | none => runGatePass toolName evaluators action args
    else (args, some result)

/-- The hooks of the user. The empty string `blank` stands for an action that is missing. -/
def runHandlers (blank : V) (toolName : String) : List (Hook V) → Args V → Except HookError (Args V)
  | [], args => .ok args
  | handler :: handlers, args =>
    match handler.run toolName ((args.get? "action").getD blank) args with
    | .error e => .error e
    | .ok (some result) => runHandlers blank toolName handlers result
    | .ok none => runHandlers blank toolName handlers args

def evaluators (securityHooks : List (Hook V)) : List (GateEvaluator V) :=
  securityHooks.map fun hook ↦ adaptLegacyHook (hook.name.getD "security_control") hook

def chained (blank : V) (toolName : String) (securityHooks userHooks : List (Hook V)) (args : Args V) :
    Except (PreprocessError V) (Args V) :=
  let action := (args.get? "action").getD blank
  match runGatePass toolName (evaluators securityHooks) action args with
  | (_, some deny) => .error (.gateDenied deny)
  | (args, none) =>
    match runHandlers blank toolName userHooks args with
    | .error e => .error (.hook e)
    | .ok args =>
      if userHooks ≠ [] ∧ securityHooks ≠ [] then
        match runGatePass toolName (evaluators securityHooks) ((args.get? "action").getD action) args with
        | (_, some deny) => .error (.gateDenied deny)
        | (args, none) => .ok args
      else .ok args

/-- The preprocessor of a tool, when there are any hooks. -/
def chainPreHooks (blank : V) (toolName : String) (securityHooks userHooks : List (Hook V)) :
    Option (Args V → Except (PreprocessError V) (Args V)) :=
  if securityHooks = [] ∧ userHooks = [] then none else some (chained blank toolName securityHooks userHooks)

inductive InvokeError (V : Type*) where
  | preprocess (error : PreprocessError V)
  | revalidation (message : String)

/-- What the function of a tool is called with, after the preprocessor and a check against the schema. -/
def invoke (preprocessor : Option (Args V → Except (PreprocessError V) (Args V)))
    (revalidate : Args V → Except String (Args V)) (args : Args V) : Except (InvokeError V) (Args V) :=
  match preprocessor with
  | none => (revalidate args).mapError .revalidation
  | some preprocess =>
    match preprocess args with
    | .error e => .error (.preprocess e)
    | .ok args => (revalidate args).mapError .revalidation

end Lionagi.Agent
