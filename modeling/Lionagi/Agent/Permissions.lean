import Lionagi.Library.Fnmatch
import Lionagi.Library.OrderedDict

/-!
# Permission policies

A policy in the mode `rules` asks the patterns of a tool, and those of every tool, in the order deny, allow, escalate.
The rule maps are re-keyed to canonical tool names when the policy is built; of keys with one canonical name the last
one gives the patterns.
-/

namespace Lionagi.Agent

/-- The methods of Python's strings and values that a policy uses. -/
structure PermissionText (V : Type) where
  /-- `s.lower()` -/
  lower : Text → Text
  /-- `repr(s)` of a string -/
  repr : Text → Text
  /-- `str(v)` of a value that is not a string -/
  str : V → Text
  /-- `bool(v)` -/
  truthy : V → Bool

/-- An argument of a tool call. -/
inductive CallValue (V : Type) where
  | text (t : Text)
  | other (v : V)
  deriving DecidableEq

inductive Behavior where
  | allow
  | deny
  | escalate
  deriving DecidableEq

structure PermissionDecision where
  behavior : Behavior
  toolName : Text
  action : Text
  reason : Text
  matchedRule : Option Text := none
  deriving DecidableEq

/-- What leaves `_build_match_string` and the matching of patterns other than by a return. -/
inductive MatchError where
  | permission (message : Text)
  | typeError
  deriving DecidableEq

abbrev RuleMap : Type := OrderedDict Text (List Text)

abbrev CallArgs (V : Type) : Type := OrderedDict Text (CallValue V)

def toolAliases : List (Text × Text) :=
  [("bash_tool".toList, "bash".toList), ("reader_tool".toList, "reader".toList),
    ("editor_tool".toList, "editor".toList), ("search_tool".toList, "search".toList),
    ("context_tool".toList, "context".toList)]

structure PermissionPolicy where
  mode : String
  allow : RuleMap
  deny : RuleMap
  escalate : RuleMap

section Policy

variable {V : Type} (py : PermissionText V)

def canonicalToolName (name : Text) : Text :=
  (toolAliases.lookup (py.lower name)).getD (py.lower name)

def normalizeRules (rules : RuleMap) : RuleMap :=
  .ofList (rules.entries.map fun rule ↦ (canonicalToolName py rule.1, rule.2))

/-- The policy that `__post_init__` leaves. -/
def PermissionPolicy.new (mode : String) (allow deny escalate : RuleMap) : PermissionPolicy where
  mode := mode
  allow := normalizeRules py allow
  deny := normalizeRules py deny
  escalate := normalizeRules py escalate

/-- `str(value)` -/
def CallValue.str : CallValue V → Text
  | .text t => t
  | .other v => py.str v

/-- `value or ""` -/
def CallValue.orEmpty : CallValue V → CallValue V
  | .text t => .text t
  | .other v => if py.truthy v then .other v else .text []

/-- `left + " " + right`, where only strings can be added to strings. -/
def CallValue.joined : CallValue V → CallValue V → Except MatchError (CallValue V)
  | .text left, .text right => .ok (.text (left ++ ' ' :: right))
  | _, _ => .error .typeError

/-- `_SHELL_CONTROL` at the start of a text. -/
def startsControl : Text → Bool
  | '&' :: '&' :: _ => true
  | '$' :: '(' :: _ => true
  | c :: _ => c == ';' || c == '|' || c == Char.ofNat 96 || c == '<' || c == '>' || c == '\n'
  | [] => false

/-- `_SHELL_CONTROL.search(command)` -/
def shellControl (command : Text) : Bool := command.tails.any startsControl

def buildMatchString (toolName action : Text) (args : CallArgs V) : Except MatchError (CallValue V) :=
  if toolName = "bash".toList then
    let command := ((args.get? "command".toList).getD (.text [])).str py
    if shellControl command then
      .error (.permission ("Shell control operator requires explicit approval: ".toList ++ py.repr command))
    else .ok (.text command)
  else if toolName = "editor".toList then .ok ((args.get? "file_path".toList).getD (.text []))
  else if toolName = "reader".toList then .ok ((args.get? "path".toList).getD (.text []))
  else if toolName = "search".toList then
    CallValue.joined ((args.get? "pattern".toList).getD (.text []))
      (((args.get? "path".toList).map fun path ↦ path.orEmpty py).getD (.text []))
  else .ok (.text (action ++ ' ' :: List.intercalate [' '] (args.values.map fun value ↦ value.str py)))

def anyText : Text := ['*']

/-- `_matches` -/
def matchesPattern (pattern : Text) : CallValue V → Except MatchError Bool
  | .text t =>
    .ok (pattern == anyText || Fnmatch.fnmatch t pattern || Fnmatch.fnmatch (py.lower t) (py.lower pattern))
  | .other _ => if pattern = anyText then .ok true else .error .typeError

/-- The first pattern that matches. -/
def firstMatch (call : CallValue V) : List Text → Except MatchError (Option Text)
  | [] => .ok none
  | pattern :: patterns => do
    if ← matchesPattern py pattern call then .ok (some pattern) else firstMatch call patterns

/-- `rules.get(tool_name, []) + rules.get("*", [])` -/
def rulesFor (rules : RuleMap) (toolName : Text) : List Text :=
  (rules.get? toolName).getD [] ++ (rules.get? anyText).getD []

namespace PermissionPolicy

/-- The three questions of `check`. -/
def ruling (policy : PermissionPolicy) (toolName action : Text) (call : CallValue V) :
    Except MatchError PermissionDecision := do
  match ← firstMatch py call (rulesFor policy.deny toolName) with
  | some pattern =>
    .ok ⟨.deny, toolName, action, "denied by rule: ".toList ++ pattern, some pattern⟩
  | none =>
    match ← firstMatch py call (rulesFor policy.allow toolName) with
    | some pattern =>
      .ok ⟨.allow, toolName, action, "allowed by rule: ".toList ++ pattern, some pattern⟩
    | none =>
      match ← firstMatch py call (rulesFor policy.escalate toolName) with
      | some pattern =>
        .ok ⟨.escalate, toolName, action, "escalate by rule: ".toList ++ pattern, some pattern⟩
      | none => .ok ⟨.deny, toolName, action, "no matching rule, default deny".toList, none⟩

def check (policy : PermissionPolicy) (toolName action : Text) (args : CallArgs V) :
    Except MatchError PermissionDecision :=
  if policy.mode = "allow_all" then .ok ⟨.allow, toolName, action, "mode=allow_all".toList, none⟩
  else if policy.mode = "deny_all" then .ok ⟨.deny, toolName, action, "mode=deny_all".toList, none⟩
  else
    let toolName := canonicalToolName py toolName
    match buildMatchString py toolName action args with
    | .error (.permission message) => .ok ⟨.deny, toolName, action, message, none⟩
    | .error .typeError => .error .typeError
    | .ok call => policy.ruling py toolName action call

end PermissionPolicy

end Policy

end Lionagi.Agent
