import Lionagi.Service.McpCommandFields
import Lionagi.Service.McpSufficiency

/-!
# Tools with an executor's name

What an admitted schema of such a tool accepts is an object, null, a boolean or a literal, and under a key that is
neither auxiliary nor an identifier's there are finitely many strings, where every declared property that can be
reached is pinned, has a type or is composed, arrays under the other keys list their items, and references lead to
what they are looked up as.
-/

namespace Lionagi.Service.Mcp

open JsonSchema SchemaWalkResult

/-! ## Bounded values -/

/-- An auxiliary key, or an identifier's without the token of an executor. -/
def IsExempt (name : String) : Prop :=
  normalizeMcpIdentifier name ∈ auxiliaryKeys ∨ isIdentifierLikeKey (normalizeMcpIdentifier name) = true ∧
    isExecTaintedKey (normalizeMcpIdentifier name) = false

def isPlain : Json → Bool
  | .null | .bool _ | .obj _ => true
  | _ => false

/-- Objects, null, booleans and literals, with finitely many strings under every key that is not exempt. -/
structure BoundedValues (values : Set Json) : Prop where
  literals : ∃ literals : List Json, ∀ value ∈ values, isPlain value = true ∨ ∃ literal ∈ literals,
    Json.same value literal = true
  strings : ∀ path key, ¬ IsExempt key → (Json.stringsAt (path ++ [key]) values).Finite

namespace BoundedValues

variable {values others : Set Json}

theorem mono (h : BoundedValues others) (hsubset : values ⊆ others) : BoundedValues values where
  literals := by
    obtain ⟨literals, hliterals⟩ := h.literals
    exact ⟨literals, fun value hvalue ↦ hliterals value (hsubset hvalue)⟩
  strings path key hkey := (h.strings path key hkey).subset (Json.stringsAt_mono hsubset)

theorem of_literals (literals : List Json)
    (h : ∀ value ∈ values, ∃ literal ∈ literals, Json.same value literal = true) : BoundedValues values where
  literals := ⟨literals, fun value hvalue ↦ .inr (h value hvalue)⟩
  strings path key _ := Json.finite_stringsAt_of_same literals h (path ++ [key])

/-- Bounded values hold finitely many strings themselves. -/
theorem direct (h : BoundedValues values) : (Json.stringsAt [] values).Finite := by
  obtain ⟨literals, hliterals⟩ := h.literals
  have hsame : (Json.stringsAt [] {value | ∃ literal ∈ literals, Json.same value literal = true}).Finite :=
    Json.finite_stringsAt_of_same literals (fun _ hvalue ↦ hvalue) []
  apply hsame.subset
  rintro string ⟨value, hvalue, hoccurs⟩
  refine ⟨value, (hliterals value hvalue).resolve_left fun hplain ↦ ?_, hoccurs⟩
  cases hoccurs with
  | here => cases hplain
  | item => cases hplain

theorem union (h : BoundedValues values) (h' : BoundedValues others) : BoundedValues (values ∪ others) where
  literals := by
    obtain ⟨literals, hliterals⟩ := h.literals
    obtain ⟨literals', hliterals'⟩ := h'.literals
    refine ⟨literals ++ literals', fun value hvalue ↦ ?_⟩
    rcases hvalue with hvalue | hvalue
    · rcases hliterals value hvalue with hplain | ⟨literal, hliteral, hsame⟩
      · exact .inl hplain
      · exact .inr ⟨literal, List.mem_append_left _ hliteral, hsame⟩
    · rcases hliterals' value hvalue with hplain | ⟨literal, hliteral, hsame⟩
      · exact .inl hplain
      · exact .inr ⟨literal, List.mem_append_right _ hliteral, hsame⟩
  strings path key hkey := by
    apply ((h.strings path key hkey).union (h'.strings path key hkey)).subset
    rintro string ⟨value, hvalue | hvalue, hoccurs⟩
    · exact .inl ⟨value, hvalue, hoccurs⟩
    · exact .inr ⟨value, hvalue, hoccurs⟩

theorem iUnion {schemas : List Json} {accepted : Json → Set Json}
    (h : ∀ schema ∈ schemas, BoundedValues (accepted schema)) :
    BoundedValues {value | ∃ schema ∈ schemas, value ∈ accepted schema} := by
  induction schemas with
  | nil =>
    apply of_literals []
    rintro value ⟨schema, hschema, -⟩
    exact absurd hschema List.not_mem_nil
  | cons schema schemas ih =>
    have hrest := ih fun other hother ↦ h other (List.mem_cons_of_mem _ hother)
    apply ((h schema List.mem_cons_self).union hrest).mono
    rintro value ⟨other, hother, hvalue⟩
    rcases List.mem_cons.1 hother with rfl | hother
    · exact .inl hvalue
    · exact .inr ⟨other, hother, hvalue⟩

end BoundedValues

/-! ## Accepted values -/

section

variable {dialect : Dialect} {base schema : Json}

def accepted (dialect : Dialect) (base schema : Json) : Set Json := {datum | Accepts dialect base schema datum}

/-- The values of a node that lists them are literals. -/
theorem same_of_isPinned (h : isPinned schema = true) : ∃ literals : List Json,
    ∀ datum ∈ accepted dialect base schema, ∃ literal ∈ literals, Json.same datum literal = true := by
  rcases Bool.or_eq_true_iff.1 h with henum | hconst
  · obtain ⟨value, hmember⟩ := Json.hasKey_iff.1 henum
    exact ⟨value.items, fun datum haccepts ↦ Accepts.enum haccepts hmember⟩
  · obtain ⟨value, hmember⟩ := Json.hasKey_iff.1 hconst
    exact ⟨[value], fun datum haccepts ↦ ⟨value, List.mem_singleton_self value, Accepts.const haccepts hmember⟩⟩

theorem boundedValues_of_isPinned (h : isPinned schema = true) : BoundedValues (accepted dialect base schema) := by
  obtain ⟨literals, hliterals⟩ := same_of_isPinned h
  exact .of_literals literals hliterals

variable {value : Json}

theorem eq_str_of_isString {name : String} (h : isString name value = true) : value = .str name := by
  cases value with
  | str found => rw [beq_iff_eq.1 h]
  | _ => cases h

/-- A type that includes a name is the name, or lists it. -/
theorem schemaTypeIncludes_cases {name : String} (h : schemaTypeIncludes (some value) name = true) :
    value = .str name ∨ ∃ names, value = .arr names ∧ .str name ∈ names := by
  cases value with
  | arr names =>
    obtain ⟨found, hfound, hname⟩ := List.any_eq_true.1 h
    exact .inr ⟨names, rfl, eq_str_of_isString hname ▸ hfound⟩
  | _ =>
    simp only [schemaTypeIncludes] at h
    exact .inl (eq_str_of_isString h)

/-- What a type allows has a type that it includes. -/
theorem exists_hasType {datum : Json} (h : typeAllows value datum = true) :
    ∃ name, schemaTypeIncludes (some value) name = true ∧ hasType name datum = true := by
  unfold typeAllows at h
  split at h
  · next name => exact ⟨name, beq_self_eq_true name, h⟩
  · next names =>
    obtain ⟨found, hfound, hallows⟩ := List.any_eq_true.1 h
    split at hallows
    · next name => exact ⟨name, List.any_eq_true.2 ⟨_, hfound, beq_self_eq_true name⟩, hallows⟩
    · cases hallows
  · cases h

/-- A value that is accepted has a type that the node includes. -/
theorem exists_hasType_of_accepts {datum : Json} (h : Accepts dialect base schema datum)
    (htype : get schema "type" = some value) :
    ∃ name, schemaTypeIncludes (get schema "type") name = true ∧ hasType name datum = true := by
  rw [htype]
  exact exists_hasType (h.type (members_of_get htype))

/-- What a bounded schema is. -/
theorem propertyIsBoundedAt_cases {fuel : ℕ} (h : propertyIsBoundedAt fuel schema = true)
    (hpinned : isPinned schema = false) : ∃ less, fuel = less + 1 ∧ (get schema "type").isSome = true ∧
      (∀ name, schemaTypeIncludes (get schema "type") name = true → name = "array" ∨ name = "null") ∧
        (∀ first, schema.lookup "prefixItems" = some first →
          ∀ item ∈ first.items, item = .bool false ∨ propertyIsBoundedAt less item = true) ∧
            ∃ rest, schema.lookup "items" = some rest ∧ (rest = .bool false ∨ propertyIsBoundedAt less rest = true) := by
  cases schema with
  | obj members =>
    cases fuel with
    | zero =>
      unfold propertyIsBoundedAt at h
      simp only [hpinned, Bool.false_eq_true, if_false] at h
    | succ less =>
      unfold propertyIsBoundedAt at h
      simp only [hpinned, Bool.false_eq_true, if_false, Bool.and_eq_true] at h
      obtain ⟨⟨⟨⟨harray, hnames⟩, -⟩, hfirst⟩, hrest⟩ := h
      refine ⟨less, rfl, ?_, fun name hname ↦ ?_, fun first hlookup item hitem ↦ ?_, ?_⟩
      · cases htype : get (.obj members) "type" with
        | none =>
          rw [htype] at harray
          cases harray
        | some value => rfl
      · cases htype : get (.obj members) "type" with
        | none =>
          rw [htype] at hname
          cases hname
        | some value =>
          rw [htype] at hname hnames harray
          rcases schemaTypeIncludes_cases hname with rfl | ⟨names, rfl, hmem⟩
          · have hself : isString name (.str name) = true := beq_self_eq_true name
            exact .inl (isString_unique hself harray)
          · rcases Bool.or_eq_true_iff.1 (List.all_eq_true.1 hnames _ hmem) with hcase | hcase
            · exact .inl (beq_iff_eq.1 hcase)
            · exact .inr (beq_iff_eq.1 hcase)
      · rw [hlookup] at hfirst
        cases first with
        | arr items =>
          have hbounded := List.all_eq_true.1 hfirst item hitem
          split at hbounded
          · exact .inl rfl
          · exact .inr hbounded
        | _ => exact absurd hitem List.not_mem_nil
      · split at hrest
        · cases hrest
        · next hlookup => exact ⟨_, hlookup, .inl rfl⟩
        · next rest _ hlookup => exact ⟨rest, hlookup, .inr hrest⟩
  | _ => cases fuel <;> cases h

/-- An array whose items are bounded holds finitely many strings. -/
theorem finite_stringsAt_of_isBounded {fuel : ℕ} (h : propertyIsBoundedAt fuel schema = true) (path : List String) :
    (Json.stringsAt path (accepted dialect base schema)).Finite := by
  induction fuel generalizing base schema with
  | zero =>
    cases hpinned : isPinned schema with
    | true =>
      obtain ⟨literals, hliterals⟩ := same_of_isPinned hpinned
      exact Json.finite_stringsAt_of_same literals hliterals path
    | false =>
      obtain ⟨less, hless, -⟩ := propertyIsBoundedAt_cases h hpinned
      cases hless
  | succ fuel ih =>
    cases hpinned : isPinned schema with
    | true =>
      obtain ⟨literals, hliterals⟩ := same_of_isPinned hpinned
      exact Json.finite_stringsAt_of_same literals hliterals path
    | false =>
      obtain ⟨less, hless, htype, htypes, hfirst, rest, hrest, hrestBounded⟩ := propertyIsBoundedAt_cases h hpinned
      cases hless
      have hitem : ∀ item, item = .bool false ∨ propertyIsBoundedAt fuel item = true →
          (Json.stringsAt path (accepted dialect (enter base schema) item)).Finite := by
        intro item hcases
        rcases hcases with rfl | hbounded
        · refine Set.finite_empty.subset ?_
          rintro string ⟨datum, haccepts, -⟩
          exact absurd haccepts not_accepts_false
        · exact ih hbounded
      let places := (schema.lookup "prefixItems").elim [] Json.items
      have hplaces : ∀ place ∈ {place | place ∈ places},
          (Json.stringsAt path (accepted dialect (enter base schema) place)).Finite := by
        intro place hplace
        cases hlookup : schema.lookup "prefixItems" with
        | none =>
          simp only [places, hlookup, Option.elim_none] at hplace
          exact absurd hplace List.not_mem_nil
        | some first =>
          simp only [places, hlookup, Option.elim_some] at hplace
          exact hitem place (hfirst first hlookup place hplace)
      apply ((hitem rest hrestBounded).union (places.finite_toSet.biUnion hplaces)).subset
      rintro string ⟨datum, haccepts, hoccurs⟩
      obtain ⟨value, hvalue⟩ := Option.isSome_iff_exists.1 htype
      obtain ⟨name, hincludes, hname⟩ := exists_hasType_of_accepts haccepts hvalue
      cases hoccurs with
      | here => rcases htypes name hincludes with rfl | rfl <;> cases hname
      | member => rcases htypes name hincludes with rfl | rfl <;> cases hname
      | @item _ items item hmem hinside =>
        rcases Accepts.items haccepts (Json.mem_members_of_lookup hrest) hmem with
          hrestAccepts | ⟨first, hlookup, place, hplace, hplaceAccepts⟩
        · exact .inl ⟨item, hrestAccepts, hinside⟩
        · refine .inr (Set.mem_biUnion ?_ ⟨item, hplaceAccepts, hinside⟩)
          change place ∈ (schema.lookup "prefixItems").elim [] Json.items
          rw [hlookup]
          exact hplace

end

/-! ## What the walk lets pass -/

/-- Something was not resolved, or a key that is not exempt is recorded. -/
def ExecutorEvidence (result : SchemaWalkResult) : Prop :=
  result.unresolvable = true ∨ result.nonIdentifierFreeFormKeys ≠ ∅

theorem lasting_executorEvidence : Lasting ExecutorEvidence where
  extend := by
    intro result next hextends hevidence
    rcases hevidence with hunresolvable | hkeys
    · exact .inl (hextends.unresolvable hunresolvable)
    · obtain ⟨key, hkey⟩ := Finset.nonempty_iff_ne_empty.2 hkeys
      exact .inr (Finset.ne_empty_of_mem (hextends.nonIdentifier hkey))
  stop := fun _ ↦ .inl rfl

section

variable {walk : Walk} {node : Json}

/-- Some walk of the node ends without evidence. -/
def Passes (walk : Walk) (node : Json) : Prop :=
  ∃ fuel seenRefs, ¬ Finds ExecutorEvidence (walk.walkSchema fuel seenRefs node)

/-- Some look at the property ends without evidence. -/
def PassesProperty (walk : Walk) (name : String) (propSchema : Json) : Prop :=
  ∃ fuel seenRefs, ¬ Finds ExecutorEvidence (walk.considerProperty (walk.walkSchema fuel) fuel seenRefs name propSchema)

namespace Passes

/-- A node that passes is walked, with a reference that can be followed. -/
theorem followable (h : Passes walk node) (hmapping : isMapping node = true) : ∃ fuel seenRefs,
    (¬ Finds ExecutorEvidence (walk.walkSchema (fuel + 1) seenRefs node)) ∧
      Followable walk.rootSchema seenRefs node := by
  obtain ⟨fuel, seenRefs, hpasses⟩ := h
  cases fuel with
  | zero => exact absurd (fun result ↦ lasting_executorEvidence.stop result) hpasses
  | succ fuel =>
    refine ⟨fuel, seenRefs, hpasses, fun ref href ↦ ?_⟩
    cases hfollow : followRef walk.rootSchema seenRefs ref with
    | some followed => rfl
    | none =>
      apply absurd _ hpasses
      intro result
      unfold Walk.walkSchema
      split
      · next hconsume => exact lasting_executorEvidence.of_consume hconsume
      · simp only [if_pos hmapping, href, hfollow]
        exact .inl rfl

theorem ref (h : Passes walk node) {ref : Json} (href : get node "$ref" = some ref) :
    ∃ seenRefs followed resolved, followRef walk.rootSchema seenRefs ref = some (followed, resolved) ∧
      Passes walk resolved := by
  obtain ⟨fuel, seenRefs, hpasses, hfollowable⟩ := h.followable (isMapping_of_get href)
  obtain ⟨⟨followed, resolved⟩, hfollow⟩ := Option.isSome_iff_exists.1 (hfollowable ref href)
  refine ⟨seenRefs, followed, resolved, hfollow, fuel, followed :: seenRefs, fun hfinds ↦ hpasses ?_⟩
  exact lasting_executorEvidence.finds_walkSchema_of_ref (isMapping_of_get href) href hfollow hfinds

theorem siblings (h : Passes walk node) (hmapping : isMapping node = true) : ∃ fuel seenRefs,
    ¬ Finds ExecutorEvidence (walk.walkSiblings (walk.walkSchema fuel) fuel seenRefs node) := by
  obtain ⟨fuel, seenRefs, hpasses, hfollowable⟩ := h.followable hmapping
  exact ⟨fuel, seenRefs, fun hfinds ↦ hpasses (lasting_executorEvidence.finds_walkSchema hmapping hfollowable hfinds)⟩

theorem branch (h : Passes walk node) {key : String} {branches : List Json} (hkey : key ∈ listOfSubschemasKeywords)
    (hget : get node key = some (.arr branches)) {branch : Json} (hbranch : branch ∈ branches) : Passes walk branch := by
  obtain ⟨fuel, seenRefs, hpasses⟩ := h.siblings (isMapping_of_get hget)
  refine ⟨fuel, seenRefs, fun hfinds ↦ hpasses ?_⟩
  apply lasting_executorEvidence.finds_walkSiblings (Walk.grows_walkSchema fuel)
  exact .inl (lasting_executorEvidence.finds_walkCompositions (Walk.grows_walkSchema fuel) hkey hget hbranch hfinds)

theorem property (h : Passes walk node) {properties : List (String × Json)} {name : String} {propSchema : Json}
    (hget : get node "properties" = some (.obj properties)) (hmem : (name, propSchema) ∈ properties) :
    PassesProperty walk name propSchema := by
  obtain ⟨fuel, seenRefs, hpasses⟩ := h.siblings (isMapping_of_get hget)
  refine ⟨fuel, seenRefs, fun hfinds ↦ hpasses ?_⟩
  apply lasting_executorEvidence.finds_walkSiblings (Walk.grows_walkSchema fuel)
  exact .inr (.inr (.inl
    (lasting_executorEvidence.finds_walkProperties (Walk.grows_walkSchema fuel) hget hmem hfinds)))

end Passes

namespace PassesProperty

variable {name : String} {propSchema : Json}

theorem passes (h : PassesProperty walk name propSchema) (hmapping : isMapping propSchema = true)
    (hcontainer : hasAnyKey objectContainerKeywords propSchema = true) : Passes walk propSchema := by
  obtain ⟨fuel, seenRefs, hpasses⟩ := h
  refine ⟨fuel, seenRefs, fun hfinds ↦ hpasses ?_⟩
  exact lasting_executorEvidence.finds_considerProperty_of_walk hmapping (.inl hcontainer) hfinds

/-- Under a key that is not exempt, what is no container is not free-form. -/
theorem not_isFreeForm (h : PassesProperty walk name propSchema) (hexempt : ¬ IsExempt name)
    (hcontainer : hasAnyKey objectContainerKeywords propSchema = false) :
    ¬ ∀ fuel seenRefs result, (propertyIsFreeForm walk.order walk.rootSchema fuel
      (decide (normalizeMcpIdentifier name ∈ categorizedKeys)) seenRefs propSchema result).1 = true := by
  intro hfree
  obtain ⟨fuel, seenRefs, hpasses⟩ := h
  apply hpasses
  apply Lasting.finds_considerProperty_of_leaf
  · intro result
    obtain ⟨hauxiliary, hidentifier⟩ := not_or.1 hexempt
    refine .inr (Finset.ne_empty_of_mem (mem_nonIdentifier_recordFreeFormKey result hauxiliary ?_))
    rw [Bool.or_eq_true, Bool.not_eq_true']
    cases htainted : isExecTaintedKey (normalizeMcpIdentifier name) with
    | true => exact .inl rfl
    | false =>
      right
      rw [← Bool.not_eq_true]
      exact fun hlike ↦ hidentifier ⟨hlike, htainted⟩
  · rintro ⟨-, hhas⟩
    rw [hcontainer] at hhas
    cases hhas
  · exact fun result ↦ .inl (hfree fuel seenRefs result)

end PassesProperty

end

/-! ## Declared properties -/

/-- A property that is pinned or may be an object; or has a type, or none under a categorized key that is not
exempt, and is under such a key where it takes arrays of anything. -/
def TameProperty (name : String) (propSchema : Json) : Prop :=
  isPinned propSchema = true ∨ propertyValueMayBeObjectShaped propSchema = true ∨
    ((get propSchema "type").isSome = true ∨ normalizeMcpIdentifier name ∈ categorizedKeys ∧ ¬ IsExempt name) ∧
      (schemaTypeIncludes (get propSchema "type") "array" = true → propSchema.hasKey "items" = true ∨ ¬ IsExempt name)

section

variable {walk : Walk} {dialect : Dialect} {base propSchema : Json} {name : String}
variable {isCategorizedKey : Bool}

theorem propertyIsFreeForm_of_string {order : KeyOrder} {rootSchema : Json} {fuel : ℕ} {seenRefs : List String}
    (hmapping : isMapping propSchema = true) (hbounded : propertyIsBounded propSchema = false)
    (hstring : schemaTypeIncludes (get propSchema "type") "string" = true) (result : SchemaWalkResult) :
    (propertyIsFreeForm order rootSchema fuel isCategorizedKey seenRefs propSchema result).1 = true := by
  cases propSchema with
  | obj members =>
    unfold propertyIsFreeForm
    simp only [hbounded, Bool.false_eq_true, if_false, if_pos hstring]
  | _ => cases hmapping

/-- An array of anything is free-form. -/
theorem propertyIsFreeForm_of_openArray {order : KeyOrder} {rootSchema : Json} {fuel : ℕ} {seenRefs : List String}
    (hmapping : isMapping propSchema = true) (hbounded : propertyIsBounded propSchema = false)
    (harray : schemaTypeIncludes (get propSchema "type") "array" = true)
    (hfirst : propSchema.hasKey "prefixItems" = false) (hitems : propSchema.hasKey "items" = false)
    (result : SchemaWalkResult) :
    (propertyIsFreeForm order rootSchema fuel isCategorizedKey seenRefs propSchema result).1 = true := by
  have hfirstNone : get propSchema "prefixItems" = none := by
    unfold get
    rw [Json.lookup_eq_none hfirst]
    rfl
  have hitemsNone : propSchema.lookup "items" = none := Json.lookup_eq_none hitems
  cases propSchema with
  | obj members =>
    unfold propertyIsFreeForm
    simp only [hbounded, Bool.false_eq_true, if_false, if_pos harray]
    split
    · rfl
    · simp only [arrayReachesFreeForm, hfirstNone, Option.elim_none, anyReading, hitemsNone]
  | _ => cases hmapping

/-- A covered schema that cannot be an object holds no object keywords. -/
theorem hasAnyKey_eq_false_of_covers (hcovers : Covers walk.rootSchema propSchema)
    (hshaped : propertyValueMayBeObjectShaped propSchema = false) :
    hasAnyKey objectContainerKeywords propSchema = false := by
  rw [← Bool.not_eq_true]
  intro hhas
  obtain ⟨key, hkey, hkeyHas⟩ := List.any_eq_true.1 hhas
  have hclass : ∀ key ∈ objectContainerKeywords, classifyKeyword key = .modeled ∨
      classifyKeyword key = .denied ∧ key ∉ ["items", "prefixItems", "unevaluatedItems"] := by decide
  rcases hclass key hkey with hmodeled | ⟨hdenied, hitems⟩
  · obtain ⟨value, hmember⟩ := Json.hasKey_iff.1 hkeyHas
    have hany : (propSchema.members.any fun member ↦ classifyKeyword member.1 == .modeled) = true :=
      List.any_eq_true.2 ⟨(key, value), hmember, beq_iff_eq.2 hmodeled⟩
    unfold propertyValueMayBeObjectShaped at hshaped
    rw [hcovers.isMapping, hany, Bool.or_true, Bool.and_true] at hshaped
    cases hshaped
  · exact hitems (hcovers.denied hdenied hkeyHas).1

/-- What a declared property of an admitted schema holds. -/
structure BoundedProperty (dialect : Dialect) (base : Json) (name : String) (propSchema : Json) : Prop where
  direct : ¬ IsExempt name → (Json.stringsAt [] (accepted dialect base propSchema)).Finite
  strings : ∀ path key, ¬ IsExempt key → (Json.stringsAt (path ++ [key]) (accepted dialect base propSchema)).Finite

theorem BoundedValues.boundedProperty (h : BoundedValues (accepted dialect base propSchema)) :
    BoundedProperty dialect base name propSchema where
  direct _ := h.direct
  strings := h.strings

/-- A property that cannot be an object: an array with bounded items, or strings and arrays under exempt keys. -/
theorem boundedProperty_of_leaf (hcovers : Covers walk.rootSchema propSchema)
    (hpasses : PassesProperty walk name propSchema) (hpinned : isPinned propSchema = false)
    (hshaped : propertyValueMayBeObjectShaped propSchema = false)
    (htype : (get propSchema "type").isSome = true ∨ normalizeMcpIdentifier name ∈ categorizedKeys ∧ ¬ IsExempt name)
    (harray : schemaTypeIncludes (get propSchema "type") "array" = true →
      propSchema.hasKey "items" = true ∨ ¬ IsExempt name) : BoundedProperty dialect base name propSchema := by
  have hmapping := hcovers.isMapping
  have hcontainer := hasAnyKey_eq_false_of_covers hcovers hshaped
  have hobject : schemaTypeIncludes (get propSchema "type") "object" = false := by
    rw [propertyValueMayBeObjectShaped, hmapping, Bool.true_and, Bool.or_eq_false_iff] at hshaped
    exact hshaped.1
  cases hvalue : get propSchema "type" with
  | none =>
    -- Without a type the key is categorized and not exempt, and the property is free-form.
    obtain ⟨hcategorized, hexempt⟩ := htype.resolve_left (by rw [hvalue]; exact Bool.false_ne_true)
    apply absurd _ (hpasses.not_isFreeForm hexempt hcontainer)
    rw [decide_eq_true hcategorized]
    intro fuel seenRefs result
    exact TakesStrings.isFreeForm (.inr ⟨hmapping, hpinned, .inl hvalue⟩) walk.order fuel result
  | some value =>
    by_cases hitems : schemaTypeIncludes (get propSchema "type") "array" = true ∧ propSchema.hasKey "items" = true
    · have hbounded := (hcovers.denied (by decide) hitems.2).2
      exact ⟨fun _ ↦ finite_stringsAt_of_isBounded hbounded [],
        fun path key _ ↦ finite_stringsAt_of_isBounded hbounded (path ++ [key])⟩
    · have hstring : schemaTypeIncludes (get propSchema "type") "string" = true → IsExempt name := by
        intro hstring
        by_contra hexempt
        apply hpasses.not_isFreeForm hexempt hcontainer
        intro fuel seenRefs result
        exact propertyIsFreeForm_of_string hmapping
          (not_propertyIsBounded_of_takesStrings hpinned (.inr hstring)) hstring result
      have hclosed : schemaTypeIncludes (get propSchema "type") "array" = false := by
        rw [← Bool.not_eq_true]
        intro hincludes
        have hnoItems : propSchema.hasKey "items" = false := Bool.not_eq_true _ ▸ fun hkey ↦ hitems ⟨hincludes, hkey⟩
        have hunbounded : propertyIsBounded propSchema = false := by
          rw [← Bool.not_eq_true]
          intro hbounded
          obtain ⟨-, -, -, -, -, rest, hlookup, -⟩ := propertyIsBoundedAt_cases hbounded hpinned
          rw [Json.lookup_eq_none hnoItems] at hlookup
          cases hlookup
        have hnoFirst : propSchema.hasKey "prefixItems" = false := by
          rw [← Bool.not_eq_true]
          intro hfirst
          rw [(hcovers.denied (by decide) hfirst).2] at hunbounded
          cases hunbounded
        have hexempt := (harray hincludes).resolve_left (by rw [hnoItems]; exact Bool.false_ne_true)
        apply hpasses.not_isFreeForm hexempt hcontainer
        intro fuel seenRefs result
        exact propertyIsFreeForm_of_openArray hmapping hunbounded hincludes hnoFirst hnoItems result
      have htyped : ∀ datum ∈ accepted dialect base propSchema, ∃ type,
          schemaTypeIncludes (get propSchema "type") type = true ∧ hasType type datum = true :=
        fun datum haccepts ↦ exists_hasType_of_accepts haccepts hvalue
      have hnoArray : ∀ items, .arr items ∉ accepted dialect base propSchema := by
        intro items haccepts
        obtain ⟨type, hincludes, htype⟩ := htyped _ haccepts
        rw [beq_iff_eq.1 htype, hclosed] at hincludes
        cases hincludes
      constructor
      · intro hexempt
        refine Set.finite_empty.subset ?_
        rintro string ⟨datum, haccepts, hoccurs⟩
        cases hoccurs with
        | here =>
          obtain ⟨type, hincludes, htype⟩ := htyped _ haccepts
          rw [beq_iff_eq.1 htype] at hincludes
          exact hexempt (hstring hincludes)
        | item => exact hnoArray _ haccepts
      · intro path key _
        refine Set.finite_empty.subset ?_
        rintro string ⟨datum, haccepts, hoccurs⟩
        generalize hpath : path ++ [key] = place at hoccurs
        cases hoccurs with
        | here => exact absurd hpath (List.append_ne_nil_of_right_ne_nil path (List.cons_ne_nil key []))
        | item => exact hnoArray _ haccepts
        | member =>
          obtain ⟨type, hincludes, htype⟩ := htyped _ haccepts
          rw [beq_iff_eq.1 htype, hobject] at hincludes
          cases hincludes

end

/-! ## Nodes -/

/-- A node, perhaps without its reference. -/
structure View (node view : Json) : Prop where
  same : ∀ key, key ≠ "$ref" → view.lookup key = node.lookup key
  ref : view.lookup "$ref" = none ∨ view.lookup "$ref" = node.lookup "$ref"

namespace View

variable {node view : Json}

theorem refl (node : Json) : View node node := ⟨fun _ _ ↦ rfl, .inr rfl⟩

theorem get_eq (h : View node view) {key : String} (hkey : key ≠ "$ref") : get view key = get node key :=
  congrArg (Option.bind · _) (h.same key hkey)

theorem get_ref (h : View node view) {ref : Json} (href : get view "$ref" = some ref) : get node "$ref" = some ref := by
  rcases h.ref with hnone | hsame
  · unfold get at href
    rw [hnone] at href
    cases href
  · unfold get at href ⊢
    rw [← hsame]
    exact href

theorem isPinned_eq (h : View node view) : isPinned view = isPinned node := by
  unfold isPinned
  rw [← Json.lookup_isSome, ← Json.lookup_isSome, h.same "enum" (by decide), h.same "const" (by decide),
    Json.lookup_isSome, Json.lookup_isSome]

theorem refSiblings (h : View node view) : View node (Mcp.refSiblings view) := by
  have hlookup : ∀ key, (Mcp.refSiblings view).lookup key = if key = "$ref" then none else view.lookup key := by
    intro key
    unfold Json.lookup Mcp.refSiblings
    change ((view.members.filter _).find? _).map _ = _
    rw [List.find?_filter]
    split
    · next hkey =>
      rw [Option.map_eq_none_iff, List.find?_eq_none]
      intro member _ hmember
      rw [decide_eq_true_iff, beq_iff_eq, bne_iff_ne] at hmember
      exact hmember.1 (hmember.2.trans hkey)
    · next hkey =>
      refine congrArg (Option.map Prod.snd) (congrArg (List.find? · view.members) (funext fun member ↦ ?_))
      by_cases hmember : member.1 = key
      · rw [hmember, beq_self_eq_true]
        exact decide_eq_true ⟨bne_iff_ne.2 hkey, rfl⟩
      · rw [beq_eq_false_iff_ne.2 hmember]
        exact decide_eq_false fun hboth ↦ Bool.false_ne_true hboth.2
  constructor
  · intro key hkey
    rw [hlookup, if_neg hkey]
    exact h.same key hkey
  · left
    rw [hlookup, if_pos rfl]

end View

variable {rootSchema : Json} {seenRefs : List String}

theorem followRef_cases {ref resolved : Json} {followed : String}
    (h : followRef rootSchema seenRefs ref = some (followed, resolved)) :
    ref = .str followed ∧ resolveLocalRef followed rootSchema = some resolved := by
  unfold followRef at h
  split at h
  · next reference =>
    split at h
    · obtain ⟨found, hresolve, heq⟩ := Option.map_eq_some_iff.1 h
      cases heq
      exact ⟨rfl, hresolve⟩
    · cases h
  · cases h

section

variable {dialect : Dialect} {base node view : Json}

/-- What a typed node without free-form types accepts is an object, null or a boolean. -/
theorem isPlain_of_typeGate (hgate : TypeGate view) (hpinned : isPinned view = false) {datum : Json} {type : String}
    (hincludes : schemaTypeIncludes (get view "type") type = true) (htype : hasType type datum = true) :
    isPlain datum = true := by
  have hbounded : type ∉ unboundedNonObjectTypes := by
    cases hvalue : get view "type" with
    | none =>
      rw [hvalue] at hincludes
      cases hincludes
    | some value =>
      have hobject := hgate.object value hvalue
      rw [hvalue] at hincludes
      rcases schemaTypeIncludes_cases hincludes with rfl | ⟨names, rfl, hmem⟩
      · simp only [schemaTypeIncludes] at hobject
        rw [beq_iff_eq.1 hobject]
        decide
      · exact hgate.union hpinned names hvalue type hmem
  cases datum with
  | str value =>
    rw [beq_iff_eq.1 htype] at hbounded
    exact absurd (by decide) hbounded
  | arr items =>
    rw [beq_iff_eq.1 htype] at hbounded
    exact absurd (by decide) hbounded
  | num value =>
    rcases Bool.or_eq_true_iff.1 htype with hnumber | hinteger
    · rw [beq_iff_eq.1 hnumber] at hbounded
      exact absurd (by decide) hbounded
    · rw [beq_iff_eq.1 (Bool.and_eq_true_iff.1 hinteger).1] at hbounded
      exact absurd (by decide) hbounded
  | _ => rfl

/-- What is admitted beside the declared properties holds finitely many strings. -/
theorem finite_stringsAt_of_objectClosed {additional : Json} (h : objectClosed (some additional) = true)
    (path : List String) : (Json.stringsAt path (accepted dialect base additional)).Finite := by
  cases additional with
  | bool open' =>
    cases open' with
    | false =>
      refine Set.finite_empty.subset ?_
      rintro string ⟨datum, haccepts, -⟩
      exact absurd haccepts not_accepts_false
    | true => cases h
  | obj members =>
    obtain ⟨literals, hliterals⟩ := same_of_isPinned h
    exact Json.finite_stringsAt_of_same literals hliterals path
  | _ => cases h

/-- A closed node whose properties are bounded is. -/
theorem boundedValues_of_leaf {nested : Json → ℕ → Verdict × ℕ} (hview : View node view) (hgate : TypeGate view)
    (hpinned : isPinned view = false) (hleaf : LeafObject nested view) (hcovers : Covers rootSchema node)
    (hprops : ∀ properties, node.lookup "properties" = some properties → ∀ name prop, (name, prop) ∈ properties.members →
      BoundedProperty dialect (enter base node) name prop) : BoundedValues (accepted dialect base node) := by
  have hplain : ∀ datum ∈ accepted dialect base node, isPlain datum = true := by
    intro datum haccepts
    obtain ⟨value, hvalue⟩ := Option.isSome_iff_exists.1 hleaf.typed
    rw [hview.get_eq (by decide)] at hvalue
    obtain ⟨type, hincludes, htype⟩ := exists_hasType_of_accepts haccepts hvalue
    rw [← hview.get_eq (by decide)] at hincludes
    exact isPlain_of_typeGate hgate hpinned hincludes htype
  refine ⟨⟨[], fun datum haccepts ↦ .inl (hplain datum haccepts)⟩, fun path key hkey ↦ ?_⟩
  obtain ⟨first, rest, hplace, hrest⟩ : ∃ first rest, path ++ [key] = first :: rest ∧
      (rest = [] ∧ first = key ∨ ∃ path', rest = path' ++ [key]) := by
    cases path with
    | nil => exact ⟨key, [], rfl, .inl ⟨rfl, rfl⟩⟩
    | cons first path => exact ⟨first, path ++ [key], rfl, .inr ⟨path, rfl⟩⟩
  rw [hplace]
  obtain ⟨additional, hadditional⟩ : ∃ additional, get view "additionalProperties" = some additional := by
    cases hget : get view "additionalProperties" with
    | none =>
      have hclosed := hleaf.closed
      rw [hget] at hclosed
      cases hclosed
    | some additional => exact ⟨additional, rfl⟩
  let declared := ((node.lookup "properties").elim [] Json.members).filter fun member ↦ member.1 == first
  have hdeclared : ∀ member ∈ {member | member ∈ declared},
      (Json.stringsAt rest (accepted dialect (enter base node) member.2)).Finite := by
    rintro ⟨name, prop⟩ hmember
    obtain ⟨hmem, hname⟩ := List.mem_filter.1 hmember
    cases hlookup : node.lookup "properties" with
    | none =>
      rw [hlookup] at hmem
      exact absurd hmem List.not_mem_nil
    | some properties =>
      rw [hlookup] at hmem
      have hprop := hprops properties hlookup name prop hmem
      rcases hrest with ⟨rfl, rfl⟩ | ⟨path', rfl⟩
      · rw [← beq_iff_eq.1 hname] at hkey
        exact hprop.direct hkey
      · exact hprop.strings path' key hkey
  have hbeside : (Json.stringsAt rest (accepted dialect (enter base node) additional)).Finite :=
    finite_stringsAt_of_objectClosed (hadditional ▸ hleaf.closed) rest
  apply ((declared.finite_toSet.biUnion hdeclared).union hbeside).subset
  rintro string ⟨datum, haccepts, hoccurs⟩
  have hdatum := hplain datum haccepts
  cases hoccurs with
  | item => cases hdatum
  | @member _ _ members found hfound hinside =>
    by_cases hhas : ∃ prop, (first, prop) ∈ (node.lookup "properties").elim [] Json.members
    · obtain ⟨prop, hprop⟩ := hhas
      refine .inl (Set.mem_biUnion (List.mem_filter.2 ⟨hprop, beq_self_eq_true first⟩) ⟨found, ?_, hinside⟩)
      cases hlookup : node.lookup "properties" with
      | none =>
        rw [hlookup] at hprop
        exact absurd hprop List.not_mem_nil
      | some properties =>
        rw [hlookup] at hprop
        exact Accepts.properties haccepts (Json.mem_members_of_lookup hlookup) hprop hfound
    · refine .inr ⟨found, ?_, hinside⟩
      rw [hview.get_eq (by decide)] at hadditional
      apply Accepts.additionalProperties haccepts (members_of_get hadditional) hfound
      have hpatterns : node.lookup "patternProperties" = none := by
        apply Json.lookup_eq_none
        rw [← Bool.not_eq_true]
        intro hpattern
        exact absurd (hcovers.denied (by decide) hpattern).1 (by decide)
      unfold isAdditional
      rw [hpatterns, Option.any_none, Bool.not_false, Bool.and_true, Bool.not_eq_true', ← Bool.not_eq_true]
      intro hany
      apply hhas
      cases hlookup : node.lookup "properties" with
      | none =>
        rw [hlookup] at hany
        cases hany
      | some properties =>
        rw [hlookup] at hany
        exact Json.hasKey_iff.1 hany

end

/-! ## Admitted schemas -/

/-- The declared properties of a node are tame, and its reference leads to what it is looked up as. -/
structure Tame (rootSchema base node : Json) : Prop where
  properties : ∀ properties name prop, ("properties", properties) ∈ node.members → (name, prop) ∈ properties.members →
    TameProperty name prop
  ref : ∀ ref resolved, ("$ref", .str ref) ∈ node.members → resolveLocalRef ref rootSchema = some resolved →
    resolve (enter base node) ref = some resolved

variable {budget : ℕ}

/-- A sufficient node that is not pinned has an object keyword. -/
theorem hasAnyKey_of_sufficient {node : Json} {fuel : ℕ}
    (h : (objectBoundednessInsufficient rootSchema fuel seenRefs node budget).1 = .sufficient)
    (hpinned : isPinned node = false) : hasAnyKey objectContainerKeywords node = true := by
  obtain ⟨-, less, -, hsufficient⟩ := sufficient_of_objectBoundedness h
  cases hsufficient with
  | ref ref followed resolved hget => exact hasAnyKey_of_get (by decide) hget
  | siblings ref followed hget => exact hasAnyKey_of_get (by decide) hget
  | composed hcomposed =>
    cases hcomposed with
    | union key branches hkey hget =>
      have hkeys : ∀ key ∈ ["oneOf", "anyOf"], key ∈ objectContainerKeywords := by decide
      exact hasAnyKey_of_get (hkeys key hkey) hget
    | intersection branches branch hget => exact hasAnyKey_of_get (by decide) hget
    | pinned hyes =>
      rw [hpinned] at hyes
      cases hyes
    | leaf _ hleaf =>
      cases hadditional : get node "additionalProperties" with
      | some additional => exact hasAnyKey_of_get (by decide) hadditional
      | none =>
        have hclosed := hleaf.closed
        rw [hadditional] at hclosed
        cases hclosed

section

variable {dialect : Dialect} {walk : Walk}

/-- A node that both proofs accept and the walk lets pass accepts bounded values. -/
theorem boundedValues_of_sufficient
    (htame : ∀ base node, Reaches walk.rootSchema base node → Tame walk.rootSchema base node) (fuel : ℕ)
    {base node view : Json}
    (h : (objectBoundednessInsufficient walk.rootSchema fuel seenRefs view budget).1 = .sufficient)
    (hview : View node view) (hcovers : Covers walk.rootSchema node) (hpasses : Passes walk node)
    (hreaches : Reaches walk.rootSchema base node) : BoundedValues (accepted dialect base node) := by
  induction fuel generalizing seenRefs base node view budget with
  | zero => cases h
  | succ fuel ih =>
    obtain ⟨hgate, less, hless, hsufficient⟩ := sufficient_of_objectBoundedness h
    cases hless
    cases hsufficient with
    | ref ref followed resolved hget hfollow htarget =>
      obtain ⟨spent, htarget⟩ := htarget
      have hnode := hview.get_ref hget
      obtain ⟨rfl, hresolved⟩ := followRef_cases hfollow
      obtain ⟨seen, other, target, hother, hcoversTarget⟩ := hcovers.ref (members_of_get hnode)
      cases followRef_unique hfollow hother
      obtain ⟨seen', other', target', hother', hpassesTarget⟩ := hpasses.ref hnode
      cases followRef_unique hfollow hother'
      have hresolve := (htame base node hreaches).ref followed resolved (members_of_get hnode) hresolved
      have hbounded := ih htarget (View.refl resolved) hcoversTarget hpassesTarget
        (hreaches.ref (members_of_get hnode) hresolve)
      exact hbounded.mono fun datum haccepts ↦ Accepts.ref haccepts (members_of_get hnode) hresolve
    | siblings ref followed hget hsiblings =>
      obtain ⟨spent, hsiblings⟩ := hsiblings
      exact ih hsiblings hview.refSiblings hcovers hpasses hreaches
    | composed hcomposed =>
      have hbranch : ∀ {key : String} {branches : List Json} {branch : Json}, key ∈ ["allOf", "anyOf", "oneOf"] →
          get node key = some (.arr branches) → branch ∈ branches →
            (∃ budget, (objectBoundednessInsufficient walk.rootSchema fuel seenRefs branch budget).1 = .sufficient) →
              BoundedValues (accepted dialect (enter base node) branch) := by
        intro key branches branch hkey hget hmem hcheck
        obtain ⟨spent, hcheck⟩ := hcheck
        have hlist : ∀ key ∈ ["allOf", "anyOf", "oneOf"], key ∈ listOfSubschemasKeywords := by decide
        exact ih hcheck (View.refl branch) (hcovers.branch hkey (members_of_get hget) hmem)
          (hpasses.branch (hlist key hkey) hget hmem) (hreaches.branch (hlist key hkey) (members_of_get hget) hmem)
      cases hcomposed with
      | union key branches hkey hget hall =>
        have hcomposition : ∀ key ∈ ["oneOf", "anyOf"], key ∈ ["allOf", "anyOf", "oneOf"] ∧ key ≠ "$ref" := by decide
        rw [hview.get_eq (hcomposition key hkey).2] at hget
        have hbounded := BoundedValues.iUnion fun branch hmem ↦
          hbranch (hcomposition key hkey).1 hget hmem (hall branch hmem)
        apply hbounded.mono
        intro datum haccepts
        rcases List.mem_cons.1 hkey with rfl | hkey
        · exact Accepts.oneOf haccepts (members_of_get hget)
        · cases List.mem_singleton.1 hkey
          exact Accepts.anyOf haccepts (members_of_get hget)
      | intersection branches branch hget hmem hcheck =>
        rw [hview.get_eq (by decide)] at hget
        apply (hbranch List.mem_cons_self hget hmem hcheck).mono
        exact fun datum haccepts ↦ (Accepts.allOf haccepts (members_of_get hget)).2 branch hmem
      | pinned hpinned => exact boundedValues_of_isPinned (hview.isPinned_eq ▸ hpinned)
      | leaf hpinned hleaf =>
        apply boundedValues_of_leaf hview hgate hpinned hleaf hcovers
        intro properties hlookup name prop hprop
        have hmember := Json.mem_members_of_lookup hlookup
        have hcoversProp := hcovers.property hmember hprop
        have hlookupView : view.lookup "properties" = some properties := (hview.same _ (by decide)).trans hlookup
        have hget : get node "properties" = some (.obj properties.members) := by
          have hmapping := hleaf.properties properties hlookupView
          cases properties with
          | obj members => exact get_of_members hlookup fun hnull ↦ by cases hnull
          | _ => cases hmapping
        have hpassesProp : PassesProperty walk name prop := hpasses.property hget hprop
        cases hprop' : isPinned prop with
        | true => exact (boundedValues_of_isPinned hprop').boundedProperty
        | false =>
          cases hshaped : propertyValueMayBeObjectShaped prop with
          | true =>
            obtain ⟨spent, hcheck⟩ := hleaf.shaped properties hlookupView name prop hprop hshaped
            apply BoundedValues.boundedProperty
            exact ih hcheck (View.refl prop) hcoversProp
              (hpassesProp.passes hcoversProp.isMapping (hasAnyKey_of_sufficient hcheck hprop'))
              (hreaches.property hmember hprop)
          | false =>
            rcases (htame base node hreaches).properties properties name prop hmember hprop with hyes | hyes | htyped
            · rw [hprop'] at hyes
              cases hyes
            · rw [hshaped] at hyes
              cases hyes
            · exact boundedProperty_of_leaf hcoversProp hpassesProp hprop' hshaped htyped.1 htyped.2

end

namespace Descriptor

/-- An admitted tool with an executor's name only accepts bounded values. -/
def AdmitsBounded (dialect : Dialect) (descriptor : Descriptor) : Prop :=
  hasStrongExecutorName descriptor.toolName = true → descriptor.validateMcpToolAdmission = .ok () →
    BoundedValues (accepted dialect descriptor.inputSchema descriptor.inputSchema)

variable {dialect : Dialect} {descriptor : Descriptor}

/-- What an admission of an executor's name was decided by. -/
theorem classified_of_admitted (hname : hasStrongExecutorName descriptor.toolName = true)
    (h : descriptor.validateMcpToolAdmission = .ok ()) :
    schemaIsInsufficient descriptor.inputSchema = .sufficient ∧ ¬ ExecutorEvidence descriptor.walk.evidence := by
  have hnone : descriptor.classifyGenericExecutor = .ok none := by
    unfold validateMcpToolAdmission at h
    cases hclassify : descriptor.classifyGenericExecutor with
    | error error =>
      rw [hclassify] at h
      cases h
    | ok reason =>
      rw [hclassify] at h
      cases reason with
      | none => rfl
      | some reason => cases h
  unfold classifyGenericExecutor at hnone
  simp only at hnone
  split at hnone
  · cases hnone
  · next hraise =>
    iterate 4
      split at hnone
      · cases hnone
    split at hnone
    · cases hnone
    · next hexecutor =>
      have hclean := fun hrefused ↦ hexecutor ⟨hname, hrefused⟩
      obtain ⟨hinsufficient, hevidence⟩ := not_or.1 hclean
      refine ⟨?_, hevidence⟩
      cases hverdict : schemaIsInsufficient descriptor.inputSchema with
      | sufficient => rfl
      | insufficient => exact absurd hverdict hinsufficient
      | typeError => exact absurd hverdict hraise

/-- An admitted tool with an executor's name only accepts bounded values where what is reached of its schema is
tame. -/
theorem admitsBounded_of_tame (h : ∀ base node, Reaches descriptor.inputSchema base node →
    Tame descriptor.inputSchema base node) : descriptor.AdmitsBounded dialect := by
  intro hname hadmitted
  obtain ⟨hsufficient, hevidence⟩ := classified_of_admitted hname hadmitted
  unfold schemaIsInsufficient at hsufficient
  split at hsufficient
  · next hmapping =>
    split at hsufficient
    · next hbounded =>
      obtain ⟨hgate, -⟩ := sufficient_of_objectBoundedness hbounded
      have hobject : IsObjectSchema descriptor.inputSchema := by
        refine ⟨hmapping, ?_⟩
        cases htype : get descriptor.inputSchema "type" with
        | none => exact .inl rfl
        | some value => exact .inr (hgate.object value htype)
      have hwalk : descriptor.walk.evidence =
          descriptor.walk.walkSchema (maxSchemaWalkDepth + 1) [] descriptor.inputSchema {} := if_pos hobject
      rw [hwalk] at hevidence
      have hpasses : Passes descriptor.walk descriptor.inputSchema :=
        ⟨maxSchemaWalkDepth + 1, [], fun hfinds ↦ hevidence (hfinds {})⟩
      have hcovers : Covers descriptor.inputSchema descriptor.inputSchema :=
        ⟨maxSchemaWalkDepth + 1, [], 0, hsufficient⟩
      have hroot : descriptor.walk.rootSchema = descriptor.inputSchema := rfl
      rw [← hroot] at h hbounded hcovers
      exact boundedValues_of_sufficient h (maxSchemaWalkDepth + 1) hbounded (View.refl _) hcovers hpasses .root
    · next hne => exact absurd hsufficient hne
  · cases hsufficient

theorem admitsBounded_enum :
    (withProperty "bash" "op" (.obj [("enum", .arr [.str "status"])])).AdmitsBounded literalDialect := by
  apply admitsBounded_of_tame
  have hplaces : ∀ base node, Reaches (withProperty "bash" "op" (.obj [("enum", .arr [.str "status"])])).inputSchema base
      node → node = (withProperty "bash" "op" (.obj [("enum", .arr [.str "status"])])).inputSchema ∨
        node = .obj [("enum", .arr [.str "status"])] := by
    intro base node hreaches
    induction hreaches with
    | root => exact .inl rfl
    | property _ hproperties hvalue ih =>
      rcases ih with rfl | rfl
      · simp [withProperty, Json.members] at hproperties
        subst hproperties
        simp [Json.members] at hvalue
        exact .inr hvalue.2
      · simp [Json.members] at hproperties
    | items _ hitems ih => rcases ih with rfl | rfl <;> simp [withProperty, Json.members] at hitems
    | branch _ hkey hbranches _ ih =>
      rcases ih with rfl | rfl
      · simp [withProperty, Json.members] at hbranches
        rcases hbranches with ⟨rfl, -⟩ | ⟨rfl, -⟩ | ⟨rfl, -⟩ <;> exact absurd hkey (by decide)
      · simp [Json.members] at hbranches
        exact absurd (hbranches.1 ▸ hkey) (by decide)
    | ref _ href _ ih => rcases ih with rfl | rfl <;> simp [withProperty, Json.members] at href
  intro base node hreaches
  rcases hplaces base node hreaches with rfl | rfl
  · constructor
    · intro properties name prop hproperties hprop
      simp [withProperty, Json.members] at hproperties
      subst hproperties
      simp [Json.members] at hprop
      obtain ⟨-, rfl⟩ := hprop
      exact .inl (by decide)
    · intro ref resolved href
      simp [withProperty, Json.members] at href
  · constructor
    · intro properties name prop hproperties
      simp [Json.members] at hproperties
    · intro ref resolved href
      simp [Json.members] at href

/-- A property without a type takes every string under its key. -/
theorem not_admitsBounded : ¬ (withProperty "bash" "note" (.obj [])).AdmitsBounded literalDialect := by
  intro h
  have hbounded := h (by decide +kernel) (by decide +kernel)
  have hexempt : ¬ IsExempt "note" := by
    unfold IsExempt
    decide +kernel
  have hstrings : Json.stringsAt ["note"] (accepted literalDialect
      (withProperty "bash" "note" (.obj [])).inputSchema (withProperty "bash" "note" (.obj [])).inputSchema) =
        Set.univ := by
    apply Set.eq_univ_of_forall
    intro string
    exact ⟨.obj [("note", .str string)], ⟨3, rfl⟩, .member List.mem_cons_self .here⟩
  apply Set.infinite_univ (α := String)
  rw [← hstrings]
  exact hbounded.strings [] "note" hexempt

end Descriptor

end Lionagi.Service.Mcp
