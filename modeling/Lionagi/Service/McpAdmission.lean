import Mathlib.Data.Finset.Insert
import Mathlib.Data.List.Infix
import Lionagi.Service.McpSchema

/-!
# Admission of MCP tools

A descriptor is refused when it exposes a generic executor. A walk over the input schema collects the keys that
take free-form strings, and the classifier reads them together with the tool's name and description. The walk
counts its nodes and stops at a depth; what it could not resolve is noted. Which strings a pattern is found in is
taken from the regular expressions of the standard library, and the sets of keywords are iterated over in any
order.
-/

namespace Lionagi.Service.Mcp

/-! ## Names -/

def isLowerOrDigit (c : Char) : Bool := c.isLower || c.isDigit

/-- An underscore between a small letter or a digit and a capital. -/
def splitLowerUpper : List Char → List Char
  | a :: b :: rest =>
    if isLowerOrDigit a && b.isUpper then a :: '_' :: splitLowerUpper (b :: rest) else a :: splitLowerUpper (b :: rest)
  | rest => rest

/-- An underscore before the last capital of a run that a small letter follows. -/
def splitUpperRun : List Char → List Char
  | a :: b :: c :: rest =>
    if a.isUpper && b.isUpper && c.isLower then a :: '_' :: splitUpperRun (b :: c :: rest)
    else a :: splitUpperRun (b :: c :: rest)
  | rest => rest

/-- The case folding of a character as far as ASCII is concerned. -/
def casefold (c : Char) : List Char :=
  match c with
  | 'ß' | 'ẞ' => ['s', 's']
  | 'İ' => ['i', Char.ofNat 0x307]
  | 'ŉ' => ['ʼ', 'n']
  | 'ſ' => ['s']
  | 'ǰ' => ['j', Char.ofNat 0x30c]
  | 'ẖ' => ['h', Char.ofNat 0x331]
  | 'ẗ' => ['t', Char.ofNat 0x308]
  | 'ẘ' => ['w', Char.ofNat 0x30a]
  | 'ẙ' => ['y', Char.ofNat 0x30a]
  | 'ẚ' => ['a', 'ʾ']
  | 'ﬀ' => ['f', 'f']
  | 'ﬁ' => ['f', 'i']
  | 'ﬂ' => ['f', 'l']
  | 'ﬃ' => ['f', 'f', 'i']
  | 'ﬄ' => ['f', 'f', 'l']
  | 'ﬅ' | 'ﬆ' => ['s', 't']
  | c => if c.toNat = 0x212a then ['k'] else [c.toLower]

/-- The runs of letters and digits. -/
def alnumRuns (text : List Char) : List (List Char) :=
  (text.splitOnP fun c ↦ !c.isAlphanum).filter fun run ↦ !run.isEmpty

def normalizeMcpIdentifier (name : String) : String :=
  String.ofList (['_'].intercalate (alnumRuns ((splitUpperRun (splitLowerUpper name.toList)).flatMap casefold)))

def normalizeMcpDescription (description : String) : List Char :=
  [' '].intercalate (alnumRuns (description.toList.flatMap casefold))

def strongExecutorNames : List String :=
  ["bash", "sh", "zsh", "shell", "cmd", "powershell", "pwsh", "terminal", "exec", "exec_command",
    "execute_command", "run_command", "run_shell", "shell_exec", "command_exec", "spawn_process", "run_process"]

def executorDescriptionPhrases : List String :=
  ["arbitrary command", "arbitrary commands", "arbitrary shell", "execute command", "execute commands",
    "executes command", "executes commands", "execute a command", "execute os command",
    "execute os commands", "executes os commands", "execute an os command", "execute system command",
    "execute system commands", "executes system commands", "execute a system command",
    "execute shell command", "execute shell commands", "executes shell commands",
    "execute a shell command", "execute terminal command", "execute terminal commands",
    "executes terminal commands", "execute a terminal command", "run command", "run commands",
    "runs command", "runs commands", "run a command", "run os command", "run os commands",
    "runs os commands", "run an os command", "run system command", "run system commands",
    "runs system commands", "run a system command", "run shell command", "run shell commands",
    "runs shell commands", "run a shell command", "run terminal command", "run terminal commands",
    "runs terminal commands", "run a terminal command", "run shell", "run a shell", "execute script",
    "execute scripts", "executes scripts", "execute a script", "spawn process", "spawn processes",
    "spawns processes", "spawn a process", "shell command executor", "shell command runner",
    "command line executor", "command line runner"]

def commandKeys : List String := ["command", "cmd", "command_line", "shell_command"]

def programKeys : List String := ["program", "executable", "binary"]

def argumentKeys : List String := ["args", "argv"]

def payloadKeys : List String := ["script", "code", "input", "text"]

def selectorKeys : List String := ["shell", "interpreter"]

def auxiliaryKeys : List String :=
  ["cwd", "working_directory", "working_dir", "env", "environment", "stdin", "timeout", "timeout_seconds", "shell",
    "interpreter", "user"]

def categorizedKeys : List String := commandKeys ++ programKeys ++ argumentKeys ++ payloadKeys ++ selectorKeys

def hasStrongExecutorName (toolName : String) : Bool := normalizeMcpIdentifier toolName ∈ strongExecutorNames

def hasExecutorDescriptionSignal (description : Option String) : Bool :=
  description.any fun description ↦
    let normalized := normalizeMcpDescription description
    !normalized.isEmpty && executorDescriptionPhrases.any fun phrase ↦
      decide ((' ' :: phrase.toList ++ [' ']) <:+: (' ' :: normalized ++ [' ']))

def identifierSuffixes : List String := ["id", "ids", "path", "paths", "uri", "url", "uuid", "slug"]

def execTaintedKeyTokens : List String :=
  ["command", "cmd", "shell", "script", "program", "binary", "executable", "argv", "args"]

/-- The tokens of a key. -/
def keyTokens (normKey : String) : List (List Char) := normKey.toList.splitOn '_'

/-- Tokens of small letters and digits that are not empty, and then a suffix. -/
def isIdentifierLikeKey (normKey : String) : Bool :=
  (keyTokens normKey).dropLast.all (fun token ↦ !token.isEmpty && token.all isLowerOrDigit) &&
    (keyTokens normKey).getLast?.any fun token ↦ decide (String.ofList token ∈ identifierSuffixes)

def isExecTaintedKey (normKey : String) : Bool :=
  (keyTokens normKey).any fun token ↦ decide (String.ofList token ∈ execTaintedKeyTokens)

/-! ## Evidence -/

/-- The orders in which two sets of keys are iterated over. -/
structure KeyOrder where
  categorized : List String
  single : List String
  categorized_perm : categorized.Perm categorizedKeys
  single_perm : single.Perm singleSubschemaKeywords

/-- What the walk has found. Where a cap stopped it, it is also `unresolvable`. -/
structure SchemaWalkResult where
  freeFormCommandKeys : Finset String := ∅
  freeFormProgramKeys : Finset String := ∅
  freeFormArgumentKeys : Finset String := ∅
  freeFormPayloadKeys : Finset String := ∅
  nonAuxiliaryFreeFormKeys : Finset String := ∅
  nonIdentifierFreeFormKeys : Finset String := ∅
  selectorKeyPresent : Bool := false
  unresolvable : Bool := false
  nodesVisited : ℕ := 0
  capped : Bool := false
  deriving DecidableEq

namespace SchemaWalkResult

variable (result : SchemaWalkResult)

def markUnresolvable : SchemaWalkResult := { result with unresolvable := true }

/-- A cap is hit. -/
def stop : SchemaWalkResult := { result with unresolvable := true, capped := true }

def visit : SchemaWalkResult := { result with nodesVisited := result.nodesVisited + 1 }

def consumeNodeBudget : Bool × SchemaWalkResult :=
  if maxSchemaWalkNodes < result.visit.nodesVisited then (false, result.visit.stop) else (true, result.visit)

def recordCategory (normKey : String) : SchemaWalkResult :=
  if normKey ∈ commandKeys then { result with freeFormCommandKeys := insert normKey result.freeFormCommandKeys }
  else if normKey ∈ programKeys then
    { result with freeFormProgramKeys := insert normKey result.freeFormProgramKeys }
  else if normKey ∈ argumentKeys then
    { result with freeFormArgumentKeys := insert normKey result.freeFormArgumentKeys }
  else if normKey ∈ payloadKeys then
    { result with freeFormPayloadKeys := insert normKey result.freeFormPayloadKeys }
  else result

def recordNonAuxiliary (normKey : String) : SchemaWalkResult :=
  if normKey ∈ auxiliaryKeys then result
  else
    { result with
      nonAuxiliaryFreeFormKeys := insert normKey result.nonAuxiliaryFreeFormKeys
      nonIdentifierFreeFormKeys :=
        if isExecTaintedKey normKey || !isIdentifierLikeKey normKey then
          insert normKey result.nonIdentifierFreeFormKeys
        else result.nonIdentifierFreeFormKeys }

def recordFreeFormKey (normKey : String) : SchemaWalkResult :=
  (result.recordCategory normKey).recordNonAuxiliary normKey

end SchemaWalkResult

/-! ## Free-form schemas -/

abbrev Reading : Type := SchemaWalkResult → Bool × SchemaWalkResult

/-- Whether the reading of some item answers yes. -/
def anyReading {α : Type} (reading : α → Reading) : List α → Reading
  | [], result => (false, result)
  | a :: as, result =>
    match reading a result with
    | (true, result) => (true, result)
    | (false, result) => anyReading reading as result

/-- The same where every item counts on the budget. -/
def anyCounted {α : Type} (reading : α → Reading) : List α → Reading
  | [], result => (false, result)
  | a :: as, result =>
    match result.consumeNodeBudget with
    | (false, result) => (false, result)
    | (true, result) =>
      match reading a result with
      | (true, result) => (true, result)
      | (false, result) => anyCounted reading as result

def isNumericBoundKeyword (key : String) : Bool :=
  key ∈ ["minLength", "maxLength", "minItems", "maxItems", "minProperties", "maxProperties", "minimum", "maximum",
    "exclusiveMinimum", "exclusiveMaximum", "minContains", "maxContains", "multipleOf"]

def isKnownScalarOnlyKeyword (key : String) : Bool :=
  key ∈ scalarOnlySchemaKeywords || isNumericBoundKeyword key

/-- Whether a member has a keyword that is not understood and may hold a subschema. -/
def isUnknownSchemaKeyword (member : String × Json) (budget : ℕ) : Bool × ℕ :=
  if member.1 ∈ knownSchemaKeywords ∨ isKnownScalarOnlyKeyword member.1 = true then (false, budget)
  else
    match isVendorAnnotationKeyword member.1 member.2 budget with
    | (true, budget) => (false, budget)
    | (false, budget) => couldCarrySubschema member.2 budget

def markUnknownSchemaKeywords (schema : Json) (result : SchemaWalkResult) : SchemaWalkResult :=
  if schema.hasKey "$dynamicRef" || schema.hasKey "$recursiveRef" then result.markUnresolvable
  else
    match anyWithin isUnknownSchemaKeyword schema.members result.nodesVisited with
    | (unknown, budget) =>
      { result with
        unresolvable := result.unresolvable || unknown
        nodesVisited := max result.nodesVisited budget }

/-- The branches of the compositions of a node. -/
def compositionBranches (schema : Json) : List Json :=
  ["allOf", "anyOf", "oneOf"].flatMap fun key ↦ ((get schema key).elim [] Json.items)

section

variable (order : KeyOrder) (rootSchema : Json)

def singleBranches (schema : Json) : List Json := order.single.filterMap (get schema)

/-- An array's places, and then the rest of its items. -/
def arrayReachesFreeForm (item : Json → Reading) (arraySchema : Json) : Reading := fun result ↦
  match anyReading item ((get arraySchema "prefixItems").elim [] Json.items) result with
  | (true, result) => (true, result)
  | (false, result) =>
    match arraySchema.lookup "items" with
    | none => (true, result)
    | some (.bool false) => (false, result)
    | some items => item items result

/-- The item of an array, an object, with the readings of the items of an array in it and of its branches. -/
def itemReachesFreeForm (nested branch : List String → Json → Reading) (seenRefs : List String)
    (itemSchema : Json) : Reading := fun result ↦
  match result.consumeNodeBudget with
  | (false, result) => (true, result)
  | (true, result) =>
    if propertyIsBounded itemSchema then (false, result)
    else if (get itemSchema "type").isSome then
      if schemaTypeIncludes (get itemSchema "type") "string" then (true, result)
      else if schemaTypeIncludes (get itemSchema "type") "array" then
        arrayReachesFreeForm (nested seenRefs) itemSchema result
      else (false, result)
    else
      let branches := compositionBranches itemSchema ++ singleBranches order itemSchema
      match get itemSchema "$ref" with
      | some (.str ref) =>
        match followRef rootSchema seenRefs (.str ref) with
        | some (ref, resolved) => anyReading (branch (ref :: seenRefs)) (resolved :: branches) result
        | none => (true, result)
      | _ => if branches = [] then (true, result) else anyReading (branch seenRefs) branches result

/-- The items of an array in an item are two deeper, its branches one. -/
def itemSchemaReachesFreeFormString : ℕ → List String → Json → Reading
  | _, _, .bool anything, result => (anything, result)
  | 0, _, .obj _, result => (true, result.stop)
  | 1, seenRefs, .obj members, result =>
    itemReachesFreeForm order rootSchema (fun seen item result ↦ itemSchemaReachesFreeFormString 0 seen item result)
      (fun seen item result ↦ itemSchemaReachesFreeFormString 0 seen item result) seenRefs (.obj members) result
  | fuel + 2, seenRefs, .obj members, result =>
    itemReachesFreeForm order rootSchema
      (fun seen item result ↦ itemSchemaReachesFreeFormString fuel seen item result)
      (fun seen item result ↦ itemSchemaReachesFreeFormString (fuel + 1) seen item result) seenRefs (.obj members)
      result
  | _, _, _, result => (true, result)

/-- The fuel is what is left of the depth below the property. -/
def propertyIsFreeForm (fuel : ℕ) (isCategorizedKey : Bool) (seenRefs : List String) (propSchema : Json) : Reading :=
  fun result ↦
    match propSchema with
    | .bool anything => (anything, result)
    | .obj _ =>
      if propertyIsBounded propSchema then (false, result)
      else if schemaTypeIncludes (get propSchema "type") "string" then (true, result)
      else if schemaTypeIncludes (get propSchema "type") "array" then
        arrayReachesFreeForm (itemSchemaReachesFreeFormString order rootSchema fuel seenRefs) propSchema result
      else ((get propSchema "type").isNone && isCategorizedKey, result)
    | _ => (false, result)

/-- The branches that constrain the same value, with the references followed to them. -/
def valueBranches (seenRefs : List String) (propSchema : Json) : List String × List Json :=
  let branches := compositionBranches propSchema ++ singleBranches order propSchema
  match (get propSchema "$ref").bind (followRef rootSchema seenRefs) with
  | some (ref, resolved) => (ref :: seenRefs, resolved :: branches)
  | none => (seenRefs, branches)

def compositionBranchReachesFreeForm (isCategorizedKey : Bool) : ℕ → List String → Json → Reading
  | 0, _, .obj _, result => (false, result.stop)
  | fuel + 1, seenRefs, .obj members, result =>
    let branches := valueBranches order rootSchema seenRefs (.obj members)
    anyCounted (fun branch result ↦
      match propertyIsFreeForm order rootSchema fuel isCategorizedKey branches.1 branch result with
      | (true, result) => (true, result)
      | (false, result) => compositionBranchReachesFreeForm isCategorizedKey fuel branches.1 branch result)
      branches.2 result
  | _, _, _, result => (false, result)

end

/-! ## The walk -/

def objectContainerKeywords : List String :=
  ["properties", "patternProperties", "additionalProperties", "$ref", "allOf", "anyOf", "oneOf", "if", "then", "else",
    "not"]

def arrayItemKeywords : List String := ["items", "prefixItems"]

def hasAnyKey (keys : List String) (schema : Json) : Bool := keys.any fun key ↦ schema.hasKey key

/-- One step after the other on the result, and whether the budget was enough. -/
def eachWithin {α : Type} (step : α → SchemaWalkResult → SchemaWalkResult) : List α → Reading
  | [], result => (true, result)
  | a :: as, result =>
    match result.consumeNodeBudget with
    | (false, result) => (false, result)
    | (true, result) => eachWithin step as (step a result)

def eachCounted {α : Type} (step : α → SchemaWalkResult → SchemaWalkResult) (as : List α)
    (result : SchemaWalkResult) : SchemaWalkResult :=
  (eachWithin step as result).2

/-- What a walk is given: the regular expressions, the orders, the document, and whether the name or the
description tell of an executor. -/
structure Walk where
  compile : String → Option (String → Bool)
  order : KeyOrder
  rootSchema : Json
  isStrongName : Bool
  isExecutorDescription : Bool

namespace Walk

variable (walk : Walk)

/-- A key is recorded where the reading answers yes. -/
def recordFreeForm (reading : Reading) (normKey : String) (result : SchemaWalkResult) : SchemaWalkResult :=
  match reading result with
  | (true, result) => result.recordFreeFormKey normKey
  | (false, result) => result

def noteSelector (normKey : String) (result : SchemaWalkResult) : SchemaWalkResult :=
  if normKey ∈ selectorKeys then { result with selectorKeyPresent := true } else result

/-- A property of a node, where nodes are walked by the given function and the fuel is what is left of the depth
below the node. -/
def considerProperty (walkSchema : List String → Json → SchemaWalkResult → SchemaWalkResult) (fuel : ℕ)
    (seenRefs : List String) (rawKey : String) (propSchema : Json) (result : SchemaWalkResult) : SchemaWalkResult :=
  let normKey := normalizeMcpIdentifier rawKey
  let isCategorizedKey := decide (normKey ∈ categorizedKeys)
  let leaf := recordFreeForm
    (propertyIsFreeForm walk.order walk.rootSchema fuel isCategorizedKey seenRefs propSchema) normKey
  let composed := recordFreeForm
    (compositionBranchReachesFreeForm walk.order walk.rootSchema isCategorizedKey (fuel + 1) seenRefs propSchema)
    normKey
  let result := noteSelector normKey result
  if isMapping propSchema then
    let result := markUnknownSchemaKeywords propSchema result
    if hasAnyKey objectContainerKeywords propSchema then walkSchema seenRefs propSchema (composed result)
    else if hasAnyKey arrayItemKeywords propSchema then leaf (walkSchema seenRefs propSchema result)
    else leaf result
  else leaf result

section

variable (walkSchema : List String → Json → SchemaWalkResult → SchemaWalkResult) (fuel : ℕ) (seenRefs : List String)

def walkSubschemaList (branches : Json) (result : SchemaWalkResult) : SchemaWalkResult :=
  match branches with
  | .arr branches => eachCounted (walkSchema seenRefs) branches result
  | _ => result.markUnresolvable

def walkComposition (schema : Json) (result : SchemaWalkResult) (key : String) : SchemaWalkResult :=
  (get schema key).elim result fun branches ↦ walkSubschemaList walkSchema seenRefs branches result

def walkCompositions (schema : Json) (result : SchemaWalkResult) : SchemaWalkResult :=
  ["allOf", "anyOf", "oneOf", "prefixItems"].foldl (walkComposition walkSchema seenRefs schema) result

def walkItems (schema : Json) (result : SchemaWalkResult) : SchemaWalkResult :=
  match get schema "items" with
  | none | some (.bool _) => result
  | some (.arr items) => walkSubschemaList walkSchema seenRefs (.arr items) result
  | some (.obj members) => eachCounted (walkSchema seenRefs) [.obj members] result
  | some _ => result.markUnresolvable

def walkProperties (schema : Json) (result : SchemaWalkResult) : SchemaWalkResult :=
  match get schema "properties" with
  | none => result
  | some (.obj properties) =>
    eachCounted (fun property ↦ walk.considerProperty walkSchema fuel seenRefs property.1 property.2) properties
      result
  | some _ => result.markUnresolvable

/-- A pattern stands for the first categorized key that it is found in. -/
def considerPattern (pattern : String × Json) (result : SchemaWalkResult) : SchemaWalkResult :=
  match walk.compile pattern.1 with
  | none => result.markUnresolvable
  | some search =>
    match walk.order.categorized.find? search with
    | some matchedKey => walk.considerProperty walkSchema fuel seenRefs matchedKey pattern.2 result
    | none => result

def walkPatternProperties (schema : Json) (result : SchemaWalkResult) : SchemaWalkResult :=
  match get schema "patternProperties" with
  | none => result
  | some (.obj patterns) => eachCounted (walk.considerPattern walkSchema fuel seenRefs) patterns result
  | some _ => result.markUnresolvable

def walkAdditionalProperties (schema : Json) (result : SchemaWalkResult) : SchemaWalkResult :=
  match get schema "additionalProperties" with
  | none | some (.bool false) => result
  | some additional =>
    let result := if isMapping additional then eachCounted (walkSchema seenRefs) [additional] result else result
    let reading := propertyIsFreeForm walk.order walk.rootSchema fuel true seenRefs additional
    if walk.isStrongName || walk.isExecutorDescription then recordFreeForm reading "<additionalProperties>" result
    else (reading result).2

/-- The keywords of a node beside its reference. Where the budget ends among the conditionals, the node ends. -/
def walkSiblings (schema : Json) (result : SchemaWalkResult) : SchemaWalkResult :=
  let result := walkCompositions walkSchema seenRefs schema result
  match eachWithin (walkSchema seenRefs) (singleBranches walk.order schema) result with
  | (false, result) => result
  | (true, result) =>
    let result := walkItems walkSchema seenRefs schema result
    let result := walk.walkProperties walkSchema fuel seenRefs schema result
    let result := walk.walkPatternProperties walkSchema fuel seenRefs schema result
    let result := walk.walkAdditionalProperties walkSchema fuel seenRefs schema result
    markUnknownSchemaKeywords schema result

end

/-- A reference that cannot be followed ends the node. -/
def walkSchema : ℕ → List String → Json → SchemaWalkResult → SchemaWalkResult
  | 0, _, _, result => result.stop
  | fuel + 1, seenRefs, schema, result =>
    match result.consumeNodeBudget with
    | (false, result) => result
    | (true, result) =>
      let nested := fun seen node result ↦ walkSchema fuel seen node result
      if isMapping schema then
        match get schema "$ref" with
        | none => walk.walkSiblings nested fuel seenRefs schema result
        | some ref =>
          match followRef walk.rootSchema seenRefs ref with
          | none => result.markUnresolvable
          | some (ref, resolved) =>
            walk.walkSiblings nested fuel seenRefs schema (nested (ref :: seenRefs) resolved result)
      else result

/-- The evidence in the whole document, which is only walked where it is a schema for objects. -/
def evidence : SchemaWalkResult :=
  if isMapping walk.rootSchema ∧ ((get walk.rootSchema "type").isNone = true ∨
      schemaTypeIncludes (get walk.rootSchema "type") "object" = true) then
    walk.walkSchema (maxSchemaWalkDepth + 1) [] walk.rootSchema {}
  else {}

end Walk

/-! ## The classifier -/

inductive AdmissionReason where
  | unboundedCommandInput
  | unboundedProcessInput
  | unboundedScriptPayload
  | executorDescriptionWithBroadInput
  | executorIdentityWithInsufficientSchema
  deriving DecidableEq

/-- What is raised: a refusal, or the error of the sufficiency proofs. -/
inductive AdmissionError where
  | permissionError (toolName : String) (reason : AdmissionReason)
  | typeError
  deriving DecidableEq

/-- A descriptor, with the regular expressions and the orders that it is read with. -/
structure Descriptor where
  compile : String → Option (String → Bool)
  order : KeyOrder
  toolName : String
  inputSchema : Json
  description : Option String

namespace Descriptor

variable (descriptor : Descriptor)

def walk : Walk where
  compile := descriptor.compile
  order := descriptor.order
  rootSchema := descriptor.inputSchema
  isStrongName := hasStrongExecutorName descriptor.toolName
  isExecutorDescription := hasExecutorDescriptionSignal descriptor.description

def classifyGenericExecutor : Except AdmissionError (Option AdmissionReason) :=
  let isStrongName := hasStrongExecutorName descriptor.toolName
  let isExecutorDescription := hasExecutorDescriptionSignal descriptor.description
  let schemaInsufficient := schemaIsInsufficient descriptor.inputSchema
  let result := descriptor.walk.evidence
  let sProcess := result.freeFormProgramKeys ≠ ∅ ∧ result.freeFormArgumentKeys ≠ ∅
  let sPayload := result.freeFormPayloadKeys ≠ ∅ ∧
    (result.selectorKeyPresent || isStrongName || isExecutorDescription) = true
  let sBroad := result.nonAuxiliaryFreeFormKeys ≠ ∅
  if schemaInsufficient = .typeError then .error .typeError
  else if result.freeFormCommandKeys ≠ ∅ then .ok (some .unboundedCommandInput)
  else if sProcess then .ok (some .unboundedProcessInput)
  else if sPayload then .ok (some .unboundedScriptPayload)
  else if isExecutorDescription = true ∧ (sBroad ∨ result.unresolvable = true) then
    .ok (some .executorDescriptionWithBroadInput)
  else if isStrongName = true ∧
      (schemaInsufficient = .insufficient ∨ result.unresolvable = true ∨ result.nonIdentifierFreeFormKeys ≠ ∅) then
    .ok (some .executorIdentityWithInsufficientSchema)
  else .ok none

def validateMcpToolAdmission : Except AdmissionError Unit := do
  match ← descriptor.classifyGenericExecutor with
  | none => return
  | some reason => throw (.permissionError descriptor.toolName reason)

end Descriptor

end Lionagi.Service.Mcp
