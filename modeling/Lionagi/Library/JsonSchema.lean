import Lionagi.Library.Json

/-!
# JSON Schema

The evaluation of a schema on an instance, keyword by keyword, with fuel, since references may lead around a
cycle: an answer is known or not, and a schema accepts what some fuel answers with yes for. A schema with an
identifier is the document that the references below it are resolved in. A keyword without meaning here asserts
nothing, and one with a malformed value fails.
-/

namespace JsonSchema

/-- What the evaluation is given: which strings a pattern is found in, and what the keywords answer that depend
on more than a node and an instance, as the references out of the document do. -/
structure Dialect where
  found : String → String → Bool
  other : Json → Json → String → Json → Option Bool

/-! ## Answers -/

def conj (answers : List (Option Bool)) : Option Bool :=
  if some false ∈ answers then some false else if none ∈ answers then none else some true

def disj (answers : List (Option Bool)) : Option Bool :=
  if some true ∈ answers then some true else if none ∈ answers then none else some false

def exactlyOne (answers : List (Option Bool)) : Option Bool :=
  if 2 ≤ answers.count (some true) then some false
  else if none ∈ answers then none else some (decide (some true ∈ answers))

/-! ## References -/

/-- The escapes of a pointer's token. -/
def unescape : List Char → List Char
  | '~' :: '1' :: rest => '/' :: unescape rest
  | '~' :: '0' :: rest => '~' :: unescape rest
  | c :: rest => c :: unescape rest
  | [] => []

def hexDigit (c : Char) : Option ℕ :=
  if c.isDigit then some (c.toNat - '0'.toNat)
  else if 'a' ≤ c ∧ c ≤ 'f' then some (c.toNat - 'a'.toNat + 10)
  else if 'A' ≤ c ∧ c ≤ 'F' then some (c.toNat - 'A'.toNat + 10)
  else none

/-- The bytes of a fragment. -/
def fragmentBytes : List Char → Option (List UInt8)
  | '%' :: high :: low :: rest => do
    let h ← hexDigit high
    let l ← hexDigit low
    let bytes ← fragmentBytes rest
    return UInt8.ofNat (16 * h + l) :: bytes
  | c :: rest => do
    let bytes ← fragmentBytes rest
    return String.utf8EncodeChar c ++ bytes
  | [] => some []

def percentDecode (fragment : List Char) : Option (List Char) :=
  if '%' ∈ fragment then do
    let bytes ← fragmentBytes fragment
    let decoded ← String.fromUTF8? ⟨bytes.toArray⟩
    return decoded.toList
  else some fragment

def arrayIndex (token : String) : Option ℕ :=
  token.toNat?.filter fun index ↦ toString index == token

/-- The value that a pointer leads to. -/
def descend : List String → Json → Option Json
  | [], value => some value
  | token :: tokens, .obj members => ((Json.obj members).lookup token).bind (descend tokens)
  | token :: tokens, .arr items => (arrayIndex token).bind fun index ↦ items[index]?.bind (descend tokens)
  | _ :: _, _ => none

/-- What a reference within the document leads to. -/
def resolve (base : Json) (reference : String) : Option Json :=
  match reference.toList with
  | ['#'] => some base
  | '#' :: '/' :: pointer =>
    ((pointer.splitOn '/').mapM fun token ↦ (percentDecode token).map fun decoded ↦
      String.ofList (unescape decoded)).bind fun tokens ↦ descend tokens base
  | _ => none

/-- The document that the references of a schema are resolved in. -/
def enter (base schema : Json) : Json := if schema.hasKey "$id" then schema else base

/-! ## Keywords -/

def hasType (name : String) : Json → Bool
  | .null => name == "null"
  | .bool _ => name == "boolean"
  | .num value => name == "number" || name == "integer" && value.den == 1
  | .str _ => name == "string"
  | .arr _ => name == "array"
  | .obj _ => name == "object"

def typeAllows (value datum : Json) : Bool :=
  match value with
  | .str name => hasType name datum
  | .arr names => names.any fun name ↦
    match name with
    | .str name => hasType name datum
    | _ => false
  | _ => false

/-- A bound on what is measured of an instance. -/
def bounds (value : Json) (measured : Option ℚ) (test : ℚ → ℚ → Bool) : Option Bool :=
  match value with
  | .num bound => some (measured.all (test bound))
  | _ => some false

def number : Json → Option ℚ
  | .num value => some value
  | _ => none

def length : Json → Option ℚ
  | .str value => some value.length
  | _ => none

def size : Json → Option ℚ
  | .arr items => some items.length
  | _ => none

def width : Json → Option ℚ
  | .obj members => some members.length
  | _ => none

def requires (names datum : Json) : Bool :=
  match names, datum with
  | .arr names, .obj members => names.all fun name ↦
    match name with
    | .str name => (Json.obj members).hasKey name
    | _ => false
  | .arr _, _ => true
  | _, _ => false

def distinct : List Json → Bool
  | [] => true
  | item :: items => !items.any (Json.same item) && distinct items

/-- Subschemas in an array that is not empty. -/
def branches (value : Json) (answer : List Json → Option Bool) : Option Bool :=
  match value with
  | .arr (schema :: schemas) => answer (schema :: schemas)
  | _ => some false

/-- Subschemas by name. -/
def named (value : Json) (answer : List (String × Json) → Option Bool) : Option Bool :=
  match value with
  | .obj members => answer members
  | _ => some false

variable (dialect : Dialect)

/-- A property that is neither declared nor matched by a pattern. -/
def isAdditional (node : Json) (name : String) : Bool :=
  !((node.lookup "properties").any fun properties ↦ properties.hasKey name) &&
    !((node.lookup "patternProperties").any fun patterns ↦
      patterns.members.any fun pattern ↦ dialect.found pattern.1 name)

/-- How many items of an array are found by the schema that it contains. -/
def containment (node : Json) (answers : List (Option Bool)) : Option Bool :=
  if none ∈ answers then none
  else
    let count : ℚ := answers.count (some true)
    let least := (node.lookup "minContains").bind number
    let most := (node.lookup "maxContains").bind number
    some (decide (least.getD 1 ≤ count) && most.all fun bound ↦ decide (count ≤ bound))

/-- What one keyword of a node answers, given the evaluation of subschemas. -/
def keyword (base node : Json) (evaluate : Json → Json → Option Bool) (key : String)
    (value datum : Json) : Option Bool :=
  match key with
  | "$ref" =>
    match value with
    | .str reference =>
      match resolve base reference with
      | some target => evaluate target datum
      | none => dialect.other base node key datum
    | _ => some false
  | "$dynamicRef" | "unevaluatedItems" | "unevaluatedProperties" => dialect.other base node key datum
  | "type" => some (typeAllows value datum)
  | "const" => some (Json.same datum value)
  | "enum" => branches value fun literals ↦ some (literals.any (Json.same datum))
  | "multipleOf" => bounds value (number datum) fun bound n ↦ decide (0 < bound) && (n / bound).den == 1
  | "maximum" => bounds value (number datum) fun bound n ↦ decide (n ≤ bound)
  | "exclusiveMaximum" => bounds value (number datum) fun bound n ↦ decide (n < bound)
  | "minimum" => bounds value (number datum) fun bound n ↦ decide (bound ≤ n)
  | "exclusiveMinimum" => bounds value (number datum) fun bound n ↦ decide (bound < n)
  | "maxLength" => bounds value (length datum) fun bound n ↦ decide (n ≤ bound)
  | "minLength" => bounds value (length datum) fun bound n ↦ decide (bound ≤ n)
  | "pattern" =>
    match value, datum with
    | .str pattern, .str string => some (dialect.found pattern string)
    | .str _, _ => some true
    | _, _ => some false
  | "maxItems" => bounds value (size datum) fun bound n ↦ decide (n ≤ bound)
  | "minItems" => bounds value (size datum) fun bound n ↦ decide (bound ≤ n)
  | "uniqueItems" =>
    match value with
    | .bool unique => some (!unique || distinct datum.items)
    | _ => some false
  | "maxProperties" => bounds value (width datum) fun bound n ↦ decide (n ≤ bound)
  | "minProperties" => bounds value (width datum) fun bound n ↦ decide (bound ≤ n)
  | "required" => some (requires value datum)
  | "dependentRequired" =>
    named value fun members ↦ some (members.all fun member ↦
      !datum.hasKey member.1 || requires member.2 datum)
  | "allOf" => branches value fun schemas ↦ conj (schemas.map fun schema ↦ evaluate schema datum)
  | "anyOf" => branches value fun schemas ↦ disj (schemas.map fun schema ↦ evaluate schema datum)
  | "oneOf" => branches value fun schemas ↦ exactlyOne (schemas.map fun schema ↦ evaluate schema datum)
  | "not" => (evaluate value datum).map not
  | "if" =>
    (evaluate value datum).bind fun holds ↦
      (node.lookup (if holds then "then" else "else")).elim (some true) fun schema ↦ evaluate schema datum
  | "dependentSchemas" =>
    named value fun members ↦ conj ((members.filter fun member ↦ datum.hasKey member.1).map
      fun member ↦ evaluate member.2 datum)
  | "prefixItems" =>
    branches value fun schemas ↦ conj (List.zipWith evaluate schemas datum.items)
  | "items" =>
    conj ((datum.items.drop ((node.lookup "prefixItems").elim 0 fun first ↦ first.items.length)).map
      (evaluate value))
  | "contains" =>
    match datum with
    | .arr items => containment node (items.map (evaluate value))
    | _ => some true
  | "properties" =>
    named value fun declared ↦ conj (datum.members.flatMap fun member ↦
      (declared.filter fun schema ↦ schema.1 == member.1).map fun schema ↦ evaluate schema.2 member.2)
  | "patternProperties" =>
    named value fun patterns ↦ conj (datum.members.flatMap fun member ↦
      (patterns.filter fun pattern ↦ dialect.found pattern.1 member.1).map fun pattern ↦
        evaluate pattern.2 member.2)
  | "additionalProperties" =>
    conj ((datum.members.filter fun member ↦ isAdditional dialect node member.1).map fun member ↦
      evaluate value member.2)
  | "propertyNames" => conj (datum.members.map fun member ↦ evaluate value (.str member.1))
  | _ => some true

/-- The answer of a schema. -/
def eval : ℕ → Json → Json → Json → Option Bool
  | 0, _, _, _ => none
  | fuel + 1, base, schema, datum =>
    match schema with
    | .bool answer => some answer
    | .obj members =>
      conj (members.map fun member ↦
        keyword dialect (enter base schema) schema (eval fuel (enter base schema)) member.1 member.2 datum)
    | _ => some false

def Accepts (base schema datum : Json) : Prop := ∃ fuel, eval dialect fuel base schema datum = some true

/-! ## Rules -/

variable {answers : List (Option Bool)}

theorem conj_eq_true : conj answers = some true ↔ ∀ answer ∈ answers, answer = some true := by
  unfold conj
  constructor
  · intro h answer hanswer
    split at h
    · cases h
    · next hfalse =>
      split at h
      · cases h
      · next hnone =>
        cases answer with
        | none => exact absurd hanswer hnone
        | some holds =>
          cases holds with
          | false => exact absurd hanswer hfalse
          | true => rfl
  · intro h
    have hfalse : some false ∉ answers := fun hmem ↦ by simpa using h _ hmem
    have hnone : none ∉ answers := fun hmem ↦ by simpa using h _ hmem
    rw [if_neg hfalse, if_neg hnone]

theorem mem_of_disj_eq_true (h : disj answers = some true) : some true ∈ answers := by
  unfold disj at h
  split at h
  · assumption
  · split at h <;> cases h

theorem mem_of_exactlyOne_eq_true (h : exactlyOne answers = some true) : some true ∈ answers := by
  unfold exactlyOne at h
  split at h
  · cases h
  · split at h
    · cases h
    · exact of_decide_eq_true (Option.some.inj h)

variable {found value : Json}

theorem branches_eq_true {answer : List Json → Option Bool} (h : branches value answer = some true) :
    value.items ≠ [] ∧ answer value.items = some true := by
  unfold branches at h
  split at h
  · exact ⟨List.cons_ne_nil _ _, h⟩
  · cases h

variable {dialect : Dialect} {base schema datum : Json}
variable {key : String}

/-- Each keyword of a schema that accepts holds. -/
theorem Accepts.keyword (h : Accepts dialect base schema datum) (hmember : (key, value) ∈ schema.members) :
    ∃ fuel, JsonSchema.keyword dialect (enter base schema) schema (eval dialect fuel (enter base schema)) key value
      datum = some true := by
  obtain ⟨fuel, heval⟩ := h
  cases fuel with
  | zero => cases heval
  | succ fuel =>
    cases schema with
    | obj members =>
      rw [eval] at heval
      exact ⟨fuel, conj_eq_true.1 heval _ (List.mem_map_of_mem hmember)⟩
    | _ => exact absurd hmember List.not_mem_nil

theorem not_accepts_false : ¬ Accepts dialect base (.bool false) datum := by
  rintro ⟨fuel, heval⟩
  cases fuel with
  | zero => cases heval
  | succ fuel => cases heval

theorem Accepts.type (h : Accepts dialect base schema datum) (hmember : ("type", value) ∈ schema.members) :
    typeAllows value datum = true := by
  obtain ⟨fuel, heval⟩ := h.keyword hmember
  exact Option.some.inj heval

theorem Accepts.const (h : Accepts dialect base schema datum) (hmember : ("const", value) ∈ schema.members) :
    Json.same datum value = true := by
  obtain ⟨fuel, heval⟩ := h.keyword hmember
  exact Option.some.inj heval

theorem Accepts.enum (h : Accepts dialect base schema datum) (hmember : ("enum", value) ∈ schema.members) :
    ∃ literal ∈ value.items, Json.same datum literal = true := by
  obtain ⟨fuel, heval⟩ := h.keyword hmember
  change branches value (fun literals ↦ some (literals.any (Json.same datum))) = some true at heval
  exact List.any_eq_true.1 (Option.some.inj (branches_eq_true heval).2)

theorem Accepts.allOf (h : Accepts dialect base schema datum) (hmember : ("allOf", value) ∈ schema.members) :
    value.items ≠ [] ∧ ∀ branch ∈ value.items, Accepts dialect (enter base schema) branch datum := by
  obtain ⟨fuel, heval⟩ := h.keyword hmember
  change branches value (fun schemas ↦ conj (schemas.map fun schema' ↦
    eval dialect fuel (enter base schema) schema' datum)) = some true at heval
  obtain ⟨hne, hbranches⟩ := branches_eq_true heval
  exact ⟨hne, fun branch hbranch ↦ ⟨fuel, conj_eq_true.1 hbranches _ (List.mem_map.2 ⟨branch, hbranch, rfl⟩)⟩⟩

theorem Accepts.anyOf (h : Accepts dialect base schema datum) (hmember : ("anyOf", value) ∈ schema.members) :
    ∃ branch ∈ value.items, Accepts dialect (enter base schema) branch datum := by
  obtain ⟨fuel, heval⟩ := h.keyword hmember
  change branches value (fun schemas ↦ disj (schemas.map fun schema' ↦
    eval dialect fuel (enter base schema) schema' datum)) = some true at heval
  obtain ⟨branch, hbranch, haccepts⟩ := List.mem_map.1 (mem_of_disj_eq_true (branches_eq_true heval).2)
  exact ⟨branch, hbranch, fuel, haccepts⟩

theorem Accepts.oneOf (h : Accepts dialect base schema datum) (hmember : ("oneOf", value) ∈ schema.members) :
    ∃ branch ∈ value.items, Accepts dialect (enter base schema) branch datum := by
  obtain ⟨fuel, heval⟩ := h.keyword hmember
  change branches value (fun schemas ↦ exactlyOne (schemas.map fun schema' ↦
    eval dialect fuel (enter base schema) schema' datum)) = some true at heval
  obtain ⟨branch, hbranch, haccepts⟩ := List.mem_map.1 (mem_of_exactlyOne_eq_true (branches_eq_true heval).2)
  exact ⟨branch, hbranch, fuel, haccepts⟩

theorem Accepts.ref (h : Accepts dialect base schema datum) {reference : String} {target : Json}
    (hmember : ("$ref", .str reference) ∈ schema.members)
    (hresolve : resolve (enter base schema) reference = some target) :
    Accepts dialect (enter base schema) target datum := by
  obtain ⟨fuel, heval⟩ := h.keyword hmember
  change (match resolve (enter base schema) reference with
    | some target => eval dialect fuel (enter base schema) target datum
    | none => dialect.other (enter base schema) schema "$ref" datum) = some true at heval
  rw [hresolve] at heval
  exact ⟨fuel, heval⟩

/-- One of the two schemas of a condition accepts. -/
theorem Accepts.cond (h : Accepts dialect base schema datum) {holds fails : Json}
    (hmember : ("if", value) ∈ schema.members) (hholds : schema.lookup "then" = some holds)
    (hfails : schema.lookup "else" = some fails) :
    Accepts dialect (enter base schema) holds datum ∨ Accepts dialect (enter base schema) fails datum := by
  obtain ⟨fuel, heval⟩ := h.keyword hmember
  obtain ⟨answer, -, hbranch⟩ := Option.bind_eq_some_iff.1 heval
  cases answer with
  | true =>
    rw [if_pos rfl, hholds] at hbranch
    exact .inl ⟨fuel, hbranch⟩
  | false =>
    rw [if_neg Bool.false_ne_true, hfails] at hbranch
    exact .inr ⟨fuel, hbranch⟩

theorem Accepts.properties (h : Accepts dialect base schema datum) (hmember : ("properties", value) ∈ schema.members)
    {declared : Json} (hdeclared : (key, declared) ∈ value.members) (hfound : (key, found) ∈ datum.members) :
    Accepts dialect (enter base schema) declared found := by
  obtain ⟨fuel, heval⟩ := h.keyword hmember
  cases value with
  | obj members =>
    refine ⟨fuel, conj_eq_true.1 heval _ (List.mem_flatMap.2 ⟨(key, found), hfound, ?_⟩)⟩
    apply List.mem_map.2
    exact ⟨(key, declared), List.mem_filter.2 ⟨hdeclared, beq_self_eq_true key⟩, rfl⟩
  | _ => exact absurd hdeclared List.not_mem_nil

theorem Accepts.additionalProperties (h : Accepts dialect base schema datum)
    (hmember : ("additionalProperties", value) ∈ schema.members) (hfound : (key, found) ∈ datum.members)
    (hadditional : isAdditional dialect schema key = true) : Accepts dialect (enter base schema) value found := by
  obtain ⟨fuel, heval⟩ := h.keyword hmember
  refine ⟨fuel, conj_eq_true.1 heval _ (List.mem_map.2 ⟨(key, found), ?_, rfl⟩)⟩
  exact List.mem_filter.2 ⟨hfound, hadditional⟩

/-- An item of an array is accepted at its place or after the places. -/
theorem Accepts.items (h : Accepts dialect base schema datum) (hmember : ("items", value) ∈ schema.members)
    {item : Json} (hitem : item ∈ datum.items) :
    Accepts dialect (enter base schema) value item ∨
      ∃ first, schema.lookup "prefixItems" = some first ∧
        ∃ place ∈ first.items, Accepts dialect (enter base schema) place item := by
  obtain ⟨fuel, heval⟩ := h.keyword hmember
  have hrest : ∀ found ∈ datum.items.drop ((schema.lookup "prefixItems").elim 0 fun first ↦ first.items.length),
      Accepts dialect (enter base schema) value found :=
    fun found hfound ↦ ⟨fuel, conj_eq_true.1 heval _ (List.mem_map_of_mem hfound)⟩
  cases hfirst : schema.lookup "prefixItems" with
  | none =>
    rw [hfirst] at hrest
    exact .inl (hrest item hitem)
  | some first =>
    rw [hfirst] at hrest
    obtain ⟨i, hi, rfl⟩ := List.mem_iff_getElem.1 hitem
    by_cases hplace : i < first.items.length
    · obtain ⟨fuel, heval⟩ := h.keyword (Json.mem_members_of_lookup hfirst)
      change branches first (fun schemas ↦ conj (List.zipWith (eval dialect fuel (enter base schema)) schemas
        datum.items)) = some true at heval
      have hzip := conj_eq_true.1 (branches_eq_true heval).2
      refine .inr ⟨first, rfl, first.items[i], List.getElem_mem hplace, fuel, hzip _ ?_⟩
      rw [List.mem_iff_getElem]
      exact ⟨i, by rw [List.length_zipWith]; exact lt_min hplace hi, List.getElem_zipWith⟩
    · apply Or.inl
      apply hrest
      rw [List.mem_iff_getElem]
      refine ⟨i - first.items.length, ?_, ?_⟩
      · rw [List.length_drop]
        change i - first.items.length < datum.items.length - first.items.length
        omega
      · rw [List.getElem_drop]
        congr 1
        change first.items.length + (i - first.items.length) = i
        omega

end JsonSchema
