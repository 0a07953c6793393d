import Lionagi.Library.JsonSchema

/-!
# Sufficiency of an MCP tool's input schema

A tool whose name is an executor's is only admitted with a schema that is proved to bound its input. Two walks
look for the proof: one that objects are closed wherever the input can be an object, and one that no position
carries a keyword outside the registry. Both count their nodes and stop at a depth, and where they are stopped
the schema is insufficient. `none` under a key and a null there are one to these functions.
-/

namespace Lionagi.Service.Mcp

/-! ## The keyword registry -/

def inertAnnotationKeywords : List String :=
  ["title", "description", "default", "examples", "deprecated", "readOnly", "writeOnly", "$comment", "$schema",
    "$id", "$anchor", "$vocabulary", "format", "contentEncoding", "contentMediaType", "contentSchema"]

def boundingKeywords : List String :=
  ["type", "const", "enum", "required", "dependentRequired", "multipleOf", "maximum", "exclusiveMaximum",
    "minimum", "exclusiveMinimum", "maxLength", "minLength", "pattern", "maxItems", "minItems", "uniqueItems",
    "maxContains", "minContains", "maxProperties", "minProperties"]

def modeledApplicatorKeywords : List String :=
  ["properties", "additionalProperties", "allOf", "anyOf", "oneOf", "$ref", "$defs", "definitions"]

def deniedApplicatorKeywords : List String :=
  ["patternProperties", "propertyNames", "unevaluatedProperties", "unevaluatedItems", "dependentSchemas", "if",
    "then", "else", "not", "contains", "items", "prefixItems", "$dynamicRef", "$dynamicAnchor", "$recursiveRef",
    "$recursiveAnchor"]

def annotationOnlyRefSiblingKeywords : List String :=
  ["description", "title", "$comment", "examples", "default", "$defs", "definitions"]

def scalarOnlySchemaKeywords : List String :=
  ["type", "enum", "const", "description", "title", "format", "pattern", "required", "default", "examples",
    "$defs", "definitions", "contentSchema"]

def singleSubschemaKeywords : List String := ["if", "then", "else", "not"]

def listOfSubschemasKeywords : List String := ["allOf", "anyOf", "oneOf", "prefixItems"]

def knownSchemaKeywords : List String :=
  scalarOnlySchemaKeywords ++ singleSubschemaKeywords ++ listOfSubschemasKeywords ++
    ["items", "properties", "patternProperties", "additionalProperties", "$ref"]

inductive KeywordClass where
  | inert
  | bounding
  | modeled
  | denied
  | unknown
  deriving DecidableEq

def classifyKeyword (name : String) : KeywordClass :=
  if name ∈ inertAnnotationKeywords then .inert
  else if name ∈ boundingKeywords then .bounding
  else if name ∈ modeledApplicatorKeywords then .modeled
  else if name ∈ deniedApplicatorKeywords then .denied
  else .unknown

def maxSchemaWalkDepth : ℕ := 12

def maxSchemaWalkNodes : ℕ := 5000

/-! ## Reading a node -/

def isMapping : Json → Bool
  | .obj _ => true
  | _ => false

/-- What is under a key, unless it is null. -/
def get (schema : Json) (key : String) : Option Json :=
  (schema.lookup key).bind fun value ↦
    match value with
    | .null => none
    | value => some value

def isString (target : String) : Json → Bool
  | .str value => value == target
  | _ => false

def schemaTypeIncludes (typeValue : Option Json) (target : String) : Bool :=
  match typeValue with
  | some (.arr names) => names.any (isString target)
  | some value => isString target value
  | none => false

/-- An enumeration or a constant stands in the node. -/
def isPinned (schema : Json) : Bool := schema.hasKey "enum" || schema.hasKey "const"

/-- The parts of a reference, where empty ones are left out. -/
def resolveParts : List (List Char) → Json → Option Json
  | [], node => some node
  | part :: parts, node =>
    if part = [] then resolveParts parts node
    else
      match node with
      | .obj members =>
        ((Json.obj members).lookup (String.ofList (JsonSchema.unescape part))).bind (resolveParts parts)
      | _ => none

def resolveLocalRef (ref : String) (rootSchema : Json) : Option Json :=
  (resolveParts ((ref.toList.drop 2).splitOn '/') rootSchema).filter isMapping

def isLocalRef (ref : String) : Bool := ref.toList.take 2 == ['#', '/']

/-- A reference that is local, not followed yet, and resolves: with what it resolves to. -/
def followRef (rootSchema : Json) (seenRefs : List String) (ref : Json) : Option (String × Json) :=
  match ref with
  | .str ref =>
    if isLocalRef ref = true ∧ ref ∉ seenRefs then (resolveLocalRef ref rootSchema).map (ref, ·) else none
  | _ => none

/-! ## Bounded properties -/

/-- The fuel is what is left of the depth, one more than the cap at the start. -/
def propertyIsBoundedAt : ℕ → Json → Bool
  | fuel, .obj members =>
    let propSchema := Json.obj members
    if isPinned propSchema then true
    else
      match fuel with
      | 0 => false
      | fuel + 1 =>
        schemaTypeIncludes (get propSchema "type") "array" &&
          (match get propSchema "type" with
            | some (.arr names) => names.all fun name ↦ isString "array" name || isString "null" name
            | _ => true) &&
          (match propSchema.lookup "unevaluatedItems" with
            | none => true
            | some (.bool false) => true
            | some _ => false) &&
          (match propSchema.lookup "prefixItems" with
            | none => true
            | some (.arr items) => items.all fun item ↦
              match item with
              | .bool false => true
              | item => propertyIsBoundedAt fuel item
            | some _ => false) &&
          match propSchema.lookup "items" with
          | none => false
          | some (.bool false) => true
          | some items => propertyIsBoundedAt fuel items
  | _, _ => false

def propertyIsBounded (propSchema : Json) : Bool := propertyIsBoundedAt (maxSchemaWalkDepth + 1) propSchema

/-! ## Object boundedness -/

/-- What a proof of sufficiency ends with. A member that cannot be hashed, or a value that cannot be iterated
over, raises. -/
inductive Verdict where
  | sufficient
  | insufficient
  | typeError
  deriving DecidableEq

/-- One check after the other on a common budget, up to the first that fails. -/
def checkAll {α : Type} (check : α → ℕ → Verdict × ℕ) : List α → ℕ → Verdict × ℕ
  | [], budget => (.sufficient, budget)
  | a :: as, budget =>
    match check a budget with
    | (.sufficient, budget) => checkAll check as budget
    | (verdict, budget) => (verdict, budget)

/-- The first check that succeeds decides. -/
def checkAny {α : Type} (check : α → ℕ → Verdict × ℕ) : List α → ℕ → Verdict × ℕ
  | [], budget => (.insufficient, budget)
  | a :: as, budget =>
    match check a budget with
    | (.insufficient, budget) => checkAny check as budget
    | (verdict, budget) => (verdict, budget)

def unboundedNonObjectTypes : List String := ["string", "number", "integer", "array"]

/-- Whether a type of the union is free-form, asked of a set of strings. -/
def anyFreeFormType : List Json → Verdict
  | [] => .sufficient
  | .str name :: names => if name ∈ unboundedNonObjectTypes then .insufficient else anyFreeFormType names
  | .arr _ :: _ | .obj _ :: _ => .typeError
  | _ :: names => anyFreeFormType names

def typeUnionHasFreeFormAlternative (topType : List Json) (schema : Json) : Verdict :=
  if isPinned schema then .sufficient else anyFreeFormType topType

/-- The same of a node, where its type is a union. -/
def nodeHasFreeFormAlternative (schema : Json) : Verdict :=
  match get schema "type" with
  | some (.arr topType) => typeUnionHasFreeFormAlternative topType schema
  | _ => .sufficient

def hasStructuralRefSiblings (siblings : Json) : Bool :=
  siblings.members.any fun member ↦ decide (member.1 ∉ annotationOnlyRefSiblingKeywords)

/-- The node without its reference. -/
def refSiblings (schema : Json) : Json := .obj (schema.members.filter fun member ↦ member.1 != "$ref")

def propertyValueMayBeObjectShaped (value : Json) : Bool :=
  isMapping value && (schemaTypeIncludes (get value "type") "object" ||
    value.members.any fun member ↦ classifyKeyword member.1 == .modeled)

/-- No property is admitted beside the declared ones, or only enumerated values. -/
def objectClosed (additional : Option Json) : Bool :=
  match additional with
  | some (.bool closed) => !closed
  | some additional => isMapping additional && isPinned additional
  | none => false

section

variable (rootSchema : Json)

/-- A node that holds properties itself. -/
def leafObjectInsufficient (nested : Json → ℕ → Verdict × ℕ) (schema : Json) (budget : ℕ) : Verdict × ℕ :=
  if get schema "type" = none then (.insufficient, budget)
  else if schema.hasKey "properties" && !(schema.lookup "properties").any isMapping then (.insufficient, budget)
  else
    match ((schema.lookup "properties").elim [] Json.members) with
    | [] =>
      match get schema "additionalProperties" with
      | some (.bool false) => (.sufficient, budget)
      | _ => (.insufficient, budget)
    | props =>
      if objectClosed (get schema "additionalProperties") then
        checkAll (fun prop budget ↦
          if propertyValueMayBeObjectShaped prop.2 then nested prop.2 budget else (.sufficient, budget)) props
          budget
      else (.insufficient, budget)

/-- The node is delegated to what it composes, or pinned, or holds properties itself. -/
def composedInsufficient (nested : Json → ℕ → Verdict × ℕ) (schema : Json) (budget : ℕ) : Verdict × ℕ :=
  let union (branches : Json) : Verdict × ℕ :=
    match branches with
    | .arr (branch :: branches) =>
      checkAll (fun branch budget ↦ if isMapping branch then nested branch budget else (.insufficient, budget))
        (branch :: branches) budget
    | _ => (.insufficient, budget)
  match get schema "oneOf", get schema "anyOf", get schema "allOf" with
  | some branches, _, _ => union branches
  | none, some branches, _ => union branches
  | none, none, some (.arr (branch :: branches)) =>
    if schema.hasKey "properties" then
      if isPinned schema then (.sufficient, budget) else leafObjectInsufficient nested schema budget
    else
      checkAny (fun branch budget ↦ if isMapping branch then nested branch budget else (.insufficient, budget))
        (branch :: branches) budget
  | _, _, _ =>
    if isPinned schema then (.sufficient, budget) else leafObjectInsufficient nested schema budget

def objectBoundednessInsufficient : ℕ → List String → Json → ℕ → Verdict × ℕ
  | 0, _, _, budget => (.insufficient, budget + 1)
  | fuel + 1, seenRefs, schema, budget =>
    if maxSchemaWalkNodes < budget + 1 then (.insufficient, budget + 1)
    else if (get schema "type").isSome && !schemaTypeIncludes (get schema "type") "object" then
      (.insufficient, budget + 1)
    else if nodeHasFreeFormAlternative schema ≠ .sufficient then (nodeHasFreeFormAlternative schema, budget + 1)
    else
      match get schema "$ref" with
      | some ref =>
        match followRef rootSchema seenRefs ref with
        | none => (.insufficient, budget + 1)
        | some (ref, resolved) =>
          match objectBoundednessInsufficient fuel (ref :: seenRefs) resolved (budget + 1) with
          | (.insufficient, budget) =>
            if hasStructuralRefSiblings (refSiblings schema) then
              objectBoundednessInsufficient fuel (ref :: seenRefs) (refSiblings schema) budget
            else (.insufficient, budget)
          | (verdict, budget) => (verdict, budget)
      | none =>
        composedInsufficient (fun branch budget ↦ objectBoundednessInsufficient fuel seenRefs branch budget) schema
          (budget + 1)

end

/-! ## Structural coverage -/

/-- Whether the test holds for some item, on a common budget. -/
def anyWithin {α : Type} (test : α → ℕ → Bool × ℕ) : List α → ℕ → Bool × ℕ
  | [], budget => (false, budget)
  | a :: as, budget =>
    match test a budget with
    | (true, budget) => (true, budget)
    | (false, budget) => anyWithin test as budget

/-- Whether the test holds for every item, on a common budget. -/
def allWithin {α : Type} (test : α → ℕ → Bool × ℕ) : List α → ℕ → Bool × ℕ
  | [], budget => (true, budget)
  | a :: as, budget =>
    match test a budget with
    | (true, budget) => allWithin test as budget
    | (false, budget) => (false, budget)

def couldCarrySubschemaAt : ℕ → Json → ℕ → Bool × ℕ
  | 0, _, budget => (true, budget + 1)
  | fuel + 1, value, budget =>
    if maxSchemaWalkNodes < budget + 1 then (true, budget + 1)
    else
      match value with
      | .obj _ => (true, budget + 1)
      | .arr items => anyWithin (couldCarrySubschemaAt fuel) items (budget + 1)
      | _ => (false, budget + 1)

def couldCarrySubschema (value : Json) (budget : ℕ) : Bool × ℕ :=
  couldCarrySubschemaAt (maxSchemaWalkDepth + 1) value budget

def isInertAnnotationValueAt : ℕ → Json → ℕ → Bool × ℕ
  | 0, _, budget => (false, budget + 1)
  | fuel + 1, value, budget =>
    if maxSchemaWalkNodes < budget + 1 then (false, budget + 1)
    else
      match value with
      | .arr items => allWithin (isInertAnnotationValueAt fuel) items (budget + 1)
      | .obj members =>
        if members.any fun member ↦ decide (member.1 ∈ knownSchemaKeywords) then (false, budget + 1)
        else allWithin (fun member ↦ isInertAnnotationValueAt fuel member.2) members (budget + 1)
      | _ => (true, budget + 1)

def isInertAnnotationValue (value : Json) (budget : ℕ) : Bool × ℕ :=
  isInertAnnotationValueAt (maxSchemaWalkDepth + 1) value budget

def isVendorAnnotationKeyword (key : String) (value : Json) (budget : ℕ) : Bool × ℕ :=
  if key = "$comment" ∨ key.toList.take 2 = ['x', '-'] then isInertAnnotationValue value budget
  else (false, budget)

section

variable (rootSchema : Json)

/-- The items of a bounded array, whose keywords are otherwise denied. -/
def coversItems (nested : Json → ℕ → Verdict × ℕ) (key : String) (value : Json) (budget : ℕ) : Verdict × ℕ :=
  if key = "items" then
    if isMapping value then nested value budget else (.sufficient, budget)
  else if key = "prefixItems" then
    match value with
    | .arr items =>
      checkAll (fun item budget ↦ if isMapping item then nested item budget else (.sufficient, budget)) items budget
    | .str _ | .obj _ => (.sufficient, budget)
    | _ => (.typeError, budget)
  else (.sufficient, budget)

/-- What a keyword of the registry that is modeled applies. -/
def coversApplicator (nested : List String → Json → ℕ → Verdict × ℕ) (seenRefs : List String) (key : String)
    (value : Json) (budget : ℕ) : Verdict × ℕ :=
  if key = "properties" then
    match value with
    | .obj props => checkAll (fun prop ↦ nested seenRefs prop.2) props budget
    | _ => (.insufficient, budget)
  else if key = "additionalProperties" then
    if isMapping value then nested seenRefs value budget else (.sufficient, budget)
  else if key = "allOf" ∨ key = "anyOf" ∨ key = "oneOf" then
    match value with
    | .arr (branch :: branches) =>
      checkAll (fun branch budget ↦
        if isMapping branch then nested seenRefs branch budget else (.insufficient, budget)) (branch :: branches)
        budget
    | _ => (.insufficient, budget)
  else if key = "$ref" then
    match followRef rootSchema seenRefs value with
    | some (ref, resolved) => nested (ref :: seenRefs) resolved budget
    | none => (.insufficient, budget)
  else
    match value with
    | .obj definitions =>
      checkAll (fun definition budget ↦
        if isMapping definition.2 then nested seenRefs definition.2 budget else (.insufficient, budget)) definitions
        budget
    | _ => (.insufficient, budget)

def coversKeyword (nested : List String → Json → ℕ → Verdict × ℕ) (seenRefs : List String) (schema : Json)
    (key : String) (value : Json) (budget : ℕ) : Verdict × ℕ :=
  if key ∈ ["items", "prefixItems", "unevaluatedItems"] ∧ propertyIsBounded schema = true then
    coversItems (nested seenRefs) key value budget
  else
    match classifyKeyword key with
    | .inert | .bounding => (.sufficient, budget)
    | .denied => (.insufficient, budget)
    | .unknown =>
      match isVendorAnnotationKeyword key value budget with
      | (true, budget) => (.sufficient, budget)
      | (false, budget) =>
        match couldCarrySubschema value budget with
        | (true, budget) => (.insufficient, budget)
        | (false, budget) => (.sufficient, budget)
    | .modeled => coversApplicator rootSchema nested seenRefs key value budget

def structuralCoverageInsufficient : ℕ → List String → Json → ℕ → Verdict × ℕ
  | 0, _, _, budget => (.insufficient, budget + 1)
  | fuel + 1, seenRefs, schema, budget =>
    if maxSchemaWalkNodes < budget + 1 then (.insufficient, budget + 1)
    else
      match schema with
      | .obj members =>
        checkAll (fun member ↦
          coversKeyword rootSchema (fun seen node budget ↦ structuralCoverageInsufficient fuel seen node budget)
            seenRefs schema member.1 member.2) members (budget + 1)
      | _ => (.insufficient, budget + 1)

end

/-- The two proofs, one after the other. -/
def schemaIsInsufficient (inputSchema : Json) : Verdict :=
  if isMapping inputSchema then
    match (objectBoundednessInsufficient inputSchema (maxSchemaWalkDepth + 1) [] inputSchema 0).1 with
    | .sufficient => (structuralCoverageInsufficient inputSchema (maxSchemaWalkDepth + 1) [] inputSchema 0).1
    | verdict => verdict
  else .insufficient

end Lionagi.Service.Mcp
