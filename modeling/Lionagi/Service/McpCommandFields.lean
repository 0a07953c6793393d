import Mathlib.Data.Set.Finite.Lattice
import Lionagi.Service.McpEvidence

/-!
# Command fields that accept every string

A property under a command key, or one that a pattern gives to it, whose schema accepts every string makes the
tool refused where the walk gets to it and recognises its schema. The walk does not get past a reference that it
cannot follow, and of a schema with object keywords it only looks at the branches; a pattern stands for one key.
-/

namespace Lionagi.Service.Mcp

open JsonSchema SchemaWalkResult

/-! ## Strings that a schema accepts -/

/-- A schema that takes strings and lists none. -/
def TakesStrings (schema : Json) : Prop :=
  schema = .bool true ∨ isMapping schema = true ∧ isPinned schema = false ∧
    (get schema "type" = none ∨ schemaTypeIncludes (get schema "type") "string" = true)

section

variable {dialect : Dialect} {base schema : Json}

def acceptedStrings (dialect : Dialect) (base schema : Json) : Set String :=
  {string | Accepts dialect base schema (.str string)}

variable {key : String} {value : Json}

theorem members_of_get (h : get schema key = some value) : (key, value) ∈ schema.members := by
  obtain ⟨found, hlookup, hfound⟩ := Option.bind_eq_some_iff.1 h
  cases found with
  | null => cases hfound
  | _ =>
    cases hfound
    exact Json.mem_members_of_lookup hlookup

/-- Finitely many literals are the same as finitely many strings. -/
theorem finite_same (literals : List Json) :
    {string : String | ∃ literal ∈ literals, Json.same (.str string) literal = true}.Finite := by
  apply (literals.flatMap Json.strings).finite_toSet.subset
  rintro string ⟨literal, hliteral, hsame⟩
  exact List.mem_flatMap.2 ⟨literal, hliteral, (Json.Occurs.here.of_same hsame).mem_strings⟩

theorem isPinned_of_infinite (h : (acceptedStrings dialect base schema).Infinite) : isPinned schema = false := by
  rw [← Bool.not_eq_true]
  intro hpinned
  apply h
  rcases Bool.or_eq_true_iff.1 hpinned with henum | hconst
  · obtain ⟨value, hmember⟩ := Json.hasKey_iff.1 henum
    exact (finite_same value.items).subset fun string haccepts ↦ haccepts.enum hmember
  · obtain ⟨value, hmember⟩ := Json.hasKey_iff.1 hconst
    refine (finite_same [value]).subset fun string haccepts ↦ ?_
    exact ⟨value, List.mem_singleton_self value, haccepts.const hmember⟩

theorem schemaTypeIncludes_of_accepts {string : String} (h : Accepts dialect base schema (.str string))
    (htype : get schema "type" = some value) : schemaTypeIncludes (some value) "string" = true := by
  have hallows := h.type (members_of_get htype)
  unfold typeAllows at hallows
  split at hallows
  · next name => exact (beq_iff_eq.1 hallows).symm ▸ beq_self_eq_true "string"
  · next names =>
    obtain ⟨name, hname, hallows⟩ := List.any_eq_true.1 hallows
    refine List.any_eq_true.2 ⟨name, hname, ?_⟩
    split at hallows
    · exact (beq_iff_eq.1 hallows).symm ▸ beq_self_eq_true "string"
    · cases hallows
  · cases hallows

/-- A schema that accepts infinitely many strings takes strings. -/
theorem takesStrings_of_infinite (h : (acceptedStrings dialect base schema).Infinite) : TakesStrings schema := by
  obtain ⟨string, haccepts⟩ := h.nonempty
  cases schema with
  | bool anything =>
    cases anything with
    | true => exact .inl rfl
    | false => exact absurd haccepts not_accepts_false
  | obj members =>
    refine .inr ⟨rfl, isPinned_of_infinite h, ?_⟩
    cases htype : get (.obj members) "type" with
    | none => exact .inl rfl
    | some value => exact .inr (schemaTypeIncludes_of_accepts haccepts htype)
  | _ =>
    obtain ⟨fuel, heval⟩ := haccepts
    cases fuel with
    | zero => cases heval
    | succ fuel => cases heval

/-- Of finitely many schemas that accept infinitely many strings together, one does. -/
theorem exists_infinite {values : List Json} (h : (acceptedStrings dialect base schema).Infinite) {base' : Json}
    (hcover : ∀ string, Accepts dialect base schema (.str string) →
      ∃ branch ∈ values, Accepts dialect base' branch (.str string)) :
    ∃ branch ∈ values, (acceptedStrings dialect base' branch).Infinite := by
  by_contra hnone
  apply h
  have hfinite : ∀ branch ∈ {branch | branch ∈ values}, (acceptedStrings dialect base' branch).Finite :=
    fun branch hbranch ↦ Set.not_infinite.1 fun hinfinite ↦ hnone ⟨branch, hbranch, hinfinite⟩
  refine (values.finite_toSet.biUnion hfinite).subset fun string haccepts ↦ ?_
  obtain ⟨branch, hbranch, hbranchAccepts⟩ := hcover string haccepts
  exact Set.mem_biUnion (by exact hbranch) hbranchAccepts

theorem get_of_members (h : schema.lookup key = some value) (hne : value ≠ .null) : get schema key = some value := by
  unfold get
  rw [h]
  cases value with
  | null => exact absurd rfl hne
  | _ => rfl

theorem items_subset_compositionBranches (hkey : key ∈ ["allOf", "anyOf", "oneOf"]) (h : schema.lookup key = some value)
    : value.items ⊆ compositionBranches schema := by
  intro branch hbranch
  refine List.mem_flatMap.2 ⟨key, hkey, ?_⟩
  rw [get_of_members h fun hnull ↦ by rw [hnull] at hbranch; exact List.not_mem_nil hbranch]
  exact hbranch

/-- A composition that accepts infinitely many strings has a branch that takes strings. -/
theorem exists_takesStrings_of_composition (h : (acceptedStrings dialect base schema).Infinite)
    (hkey : key ∈ ["allOf", "anyOf", "oneOf"]) (hhas : schema.hasKey key = true) :
    ∃ branch ∈ compositionBranches schema, TakesStrings branch := by
  obtain ⟨value, hlookup⟩ := Option.isSome_iff_exists.1 (Json.lookup_isSome.trans hhas)
  have hmember := Json.mem_members_of_lookup hlookup
  have hbranch : ∃ branch ∈ value.items, (acceptedStrings dialect (enter base schema) branch).Infinite := by
    apply exists_infinite h
    intro string haccepts
    rcases List.mem_cons.1 hkey with rfl | hkey
    · obtain ⟨hne, hall⟩ := haccepts.allOf hmember
      obtain ⟨branch, hbranch⟩ := List.exists_mem_of_ne_nil _ hne
      exact ⟨branch, hbranch, hall branch hbranch⟩
    · rcases List.mem_cons.1 hkey with rfl | hkey
      · exact haccepts.anyOf hmember
      · cases List.mem_singleton.1 hkey
        exact haccepts.oneOf hmember
  obtain ⟨branch, hbranch, hinfinite⟩ := hbranch
  exact ⟨branch, items_subset_compositionBranches hkey hlookup hbranch, takesStrings_of_infinite hinfinite⟩

/-- A condition with both schemas that accepts infinitely many strings has a schema that takes strings. -/
theorem exists_takesStrings_of_condition (h : (acceptedStrings dialect base schema).Infinite)
    (hif : schema.hasKey "if" = true) (hthen : schema.hasKey "then" = true) (helse : schema.hasKey "else" = true) :
    ∃ key ∈ singleSubschemaKeywords, ∃ branch, get schema key = some branch ∧ TakesStrings branch := by
  obtain ⟨value, hmember⟩ := Json.hasKey_iff.1 hif
  obtain ⟨holds, hholds⟩ := Option.isSome_iff_exists.1 (Json.lookup_isSome.trans hthen)
  obtain ⟨fails, hfails⟩ := Option.isSome_iff_exists.1 (Json.lookup_isSome.trans helse)
  have hbranch : ∃ branch ∈ [holds, fails], (acceptedStrings dialect (enter base schema) branch).Infinite := by
    apply exists_infinite h
    intro string haccepts
    rcases haccepts.cond hmember hholds hfails with hleft | hright
    · exact ⟨holds, List.mem_cons_self, hleft⟩
    · exact ⟨fails, List.mem_cons_of_mem _ (List.mem_singleton_self fails), hright⟩
  obtain ⟨branch, hbranch, hinfinite⟩ := hbranch
  have htakes := takesStrings_of_infinite hinfinite
  have hnull : branch ≠ .null := by
    rintro rfl
    rcases htakes with htrue | ⟨hmapping, -⟩
    · cases htrue
    · cases hmapping
  rcases List.mem_cons.1 hbranch with rfl | hbranch
  · exact ⟨"then", by decide, _, get_of_members hholds hnull, htakes⟩
  · cases List.mem_singleton.1 hbranch
    exact ⟨"else", by decide, _, get_of_members hfails hnull, htakes⟩

end

/-! ## Recognised schemas -/

/-- The references followed to the branches of a schema. -/
def followedRefs (rootSchema : Json) (seenRefs : List String) (schema : Json) : List String :=
  ((get schema "$ref").bind (followRef rootSchema seenRefs)).elim seenRefs fun followed ↦ followed.1 :: seenRefs

/-- A schema that constrains the same value. -/
def IsBranch (rootSchema : Json) (seenRefs : List String) (schema branch : Json) : Prop :=
  (∃ ref, (get schema "$ref").bind (followRef rootSchema seenRefs) = some (ref, branch)) ∨
    branch ∈ compositionBranches schema ∨ ∃ key ∈ singleSubschemaKeywords, get schema key = some branch

/-- A schema that is free-form under a categorized key, whatever was counted before. -/
def IsFreeForm (rootSchema : Json) (seenRefs : List String) (schema : Json) : Prop :=
  ∀ order fuel result, (propertyIsFreeForm order rootSchema fuel true seenRefs schema result).1 = true

/-- Some branch is free-form, or has such a branch. -/
inductive HasFreeFormBranch (rootSchema : Json) : List String → Json → Prop where
  | here {seenRefs : List String} {schema branch : Json} :
      IsBranch rootSchema seenRefs schema branch →
        IsFreeForm rootSchema (followedRefs rootSchema seenRefs schema) branch →
          HasFreeFormBranch rootSchema seenRefs schema
  | deeper {seenRefs : List String} {schema branch : Json} :
      IsBranch rootSchema seenRefs schema branch →
        HasFreeFormBranch rootSchema (followedRefs rootSchema seenRefs schema) branch →
          HasFreeFormBranch rootSchema seenRefs schema

/-- What is recognised of a schema that accepts every string: one without object keywords, a composition, a
condition with both schemas, or one with a branch that is free-form. -/
def Recognised (rootSchema : Json) (seenRefs : List String) (schema : Json) : Prop :=
  hasAnyKey objectContainerKeywords schema = false ∨ hasAnyKey ["allOf", "anyOf", "oneOf"] schema = true ∨
    (schema.hasKey "if" = true ∧ schema.hasKey "then" = true ∧ schema.hasKey "else" = true) ∨
      HasFreeFormBranch rootSchema seenRefs schema

section

variable {rootSchema : Json} {seenRefs : List String} {schema : Json}

/-- A bounded array is of no other type. -/
theorem type_of_propertyIsBounded (h : propertyIsBounded schema = true) (hpinned : isPinned schema = false) :
    schemaTypeIncludes (get schema "type") "array" = true ∧ ∀ names, get schema "type" = some (.arr names) →
      ∀ name ∈ names, isString "array" name = true ∨ isString "null" name = true := by
  cases schema with
  | obj members =>
    unfold propertyIsBounded propertyIsBoundedAt at h
    simp only [hpinned, Bool.false_eq_true, if_false, Bool.and_eq_true] at h
    obtain ⟨⟨⟨⟨harray, hnames⟩, -⟩, -⟩, -⟩ := h
    refine ⟨harray, fun names htype name hname ↦ ?_⟩
    rw [htype] at hnames
    exact Bool.or_eq_true_iff.1 (List.all_eq_true.1 hnames name hname)
  | _ => cases h

theorem isString_unique {target other : String} {value : Json} (h : isString target value = true)
    (h' : isString other value = true) : target = other := by
  cases value with
  | str found => exact (beq_iff_eq.1 h).symm.trans (beq_iff_eq.1 h')
  | _ => cases h

theorem not_propertyIsBounded_of_takesStrings (hpinned : isPinned schema = false)
    (htype : get schema "type" = none ∨ schemaTypeIncludes (get schema "type") "string" = true) :
    propertyIsBounded schema = false := by
  rw [← Bool.not_eq_true]
  intro hbounded
  obtain ⟨harray, hnames⟩ := type_of_propertyIsBounded hbounded hpinned
  rcases htype with hnone | hstring
  · rw [hnone] at harray
    cases harray
  · cases htype : get schema "type" with
    | none =>
      rw [htype] at harray
      cases harray
    | some value =>
      rw [htype] at harray hstring
      cases value with
      | arr names =>
        obtain ⟨name, hname, hname'⟩ := List.any_eq_true.1 hstring
        rcases hnames names htype name hname with hcase | hcase
        · exact absurd (isString_unique hname' hcase) (by decide)
        · exact absurd (isString_unique hname' hcase) (by decide)
      | _ =>
        simp only [schemaTypeIncludes] at hstring harray
        have heq : "string" = "array" := isString_unique hstring harray
        exact absurd heq (by decide)

theorem TakesStrings.isFreeForm (h : TakesStrings schema) : IsFreeForm rootSchema seenRefs schema := by
  intro order fuel result
  rcases h with rfl | ⟨hmapping, hpinned, htype⟩
  · rfl
  · have hbounded := not_propertyIsBounded_of_takesStrings hpinned htype
    cases schema with
    | obj members =>
      unfold propertyIsFreeForm
      simp only [hbounded, Bool.false_eq_true, if_false]
      rcases htype with hnone | hstring
      · rw [hnone]
        rfl
      · rw [if_pos hstring]
    | _ => cases hmapping

end

/-- A schema that is recognised takes strings, or has a branch that is free-form. -/
theorem Recognised.takes {rootSchema schema base : Json} {seenRefs : List String} {dialect : Dialect}
    (h : Recognised rootSchema seenRefs schema) (hinfinite : (acceptedStrings dialect base schema).Infinite) :
    hasAnyKey objectContainerKeywords schema = false ∧ TakesStrings schema ∨
      HasFreeFormBranch rootSchema seenRefs schema := by
  rcases h with hleaf | hcomposed | ⟨hif, hthen, helse⟩ | hbranch
  · exact .inl ⟨hleaf, takesStrings_of_infinite hinfinite⟩
  · obtain ⟨key, hkey, hhas⟩ := List.any_eq_true.1 hcomposed
    obtain ⟨branch, hbranch, htakes⟩ := exists_takesStrings_of_composition hinfinite hkey hhas
    exact .inr (.here (.inr (.inl hbranch)) htakes.isFreeForm)
  · obtain ⟨key, hkey, branch, hbranch, htakes⟩ := exists_takesStrings_of_condition hinfinite hif hthen helse
    exact .inr (.here (.inr (.inr ⟨key, hkey, hbranch⟩)) htakes.isFreeForm)
  · exact .inr hbranch

section

variable {order : KeyOrder} {rootSchema : Json} {seenRefs : List String} {schema : Json}

theorem valueBranches_fst : (valueBranches order rootSchema seenRefs schema).1 = followedRefs rootSchema seenRefs schema := by
  unfold valueBranches followedRefs
  cases (get schema "$ref").bind (followRef rootSchema seenRefs) with
  | none => rfl
  | some followed => rfl

theorem mem_valueBranches {branch : Json} (h : IsBranch rootSchema seenRefs schema branch) :
    branch ∈ (valueBranches order rootSchema seenRefs schema).2 := by
  have hrest : (branch ∈ compositionBranches schema ∨ ∃ key ∈ singleSubschemaKeywords, get schema key = some branch) →
      branch ∈ compositionBranches schema ++ singleBranches order schema := by
    rintro (hcomposed | ⟨key, hkey, hget⟩)
    · exact List.mem_append_left _ hcomposed
    · apply List.mem_append_right
      exact List.mem_filterMap.2 ⟨key, order.single_perm.mem_iff.2 hkey, hget⟩
  unfold valueBranches
  rcases h with ⟨ref, href⟩ | hbranch
  · rw [href]
    exact List.mem_cons_self
  · simp only
    split
    · exact List.mem_cons_of_mem _ (hrest hbranch)
    · exact hrest hbranch

variable {Q : SchemaWalkResult → Prop}

/-- The second reading is made when the first one finds nothing. -/
def orElse (first second : Reading) : Reading := fun result ↦
  match first result with
  | (true, result) => (true, result)
  | (false, result) => second result

theorem reads_orElse {first second : Reading} (hfirst : Reads first) (hsecond : Reads second) :
    Reads (orElse first second) := by
  intro result
  have hextends : result.Extends (first result).2 := hfirst result
  unfold orElse
  split
  · next hread =>
    rw [hread] at hextends
    exact hextends
  · next hread =>
    rw [hread] at hextends
    exact hextends.trans (hsecond _)

/-- Free-form branches are found among the compositions of a schema. -/
theorem Lasting.detects_composition (hQ : Lasting Q) (h : HasFreeFormBranch rootSchema seenRefs schema) (fuel : ℕ) :
    Detects Q (compositionBranchReachesFreeForm order rootSchema true fuel seenRefs schema) := by
  have hmapping : ∀ {seenRefs : List String} {schema branch : Json}, IsBranch rootSchema seenRefs schema branch →
      ∃ members, schema = .obj members := by
    intro seenRefs schema branch hbranch
    cases schema with
    | obj members => exact ⟨members, rfl⟩
    | _ =>
      rcases hbranch with ⟨ref, href⟩ | hcomposed | ⟨key, -, hget⟩
      · cases href
      · exact absurd hcomposed List.not_mem_nil
      · cases hget
  have hreads : ∀ (fuel : ℕ) (refs : List String) (branch : Json),
      Reads (orElse (propertyIsFreeForm order rootSchema fuel true refs branch)
        (compositionBranchReachesFreeForm order rootSchema true fuel refs branch)) :=
    fun fuel refs branch ↦ reads_orElse (reads_propertyIsFreeForm fuel true refs branch)
      (reads_compositionBranchReachesFreeForm true fuel refs branch)
  induction h generalizing fuel with
  | @here seenRefs schema branch hbranch hfree =>
    obtain ⟨members, rfl⟩ := hmapping hbranch
    cases fuel with
    | zero => exact fun result ↦ .inr (hQ.stop result)
    | succ fuel =>
      apply hQ.detects_anyCounted (hreads fuel _) (mem_valueBranches hbranch)
      intro result
      have hanswer := hfree order fuel result
      rw [← valueBranches_fst] at hanswer
      unfold orElse
      split
      · exact .inl rfl
      · next hread =>
        rw [hread] at hanswer
        cases hanswer
  | @deeper seenRefs schema branch hbranch _ ih =>
    obtain ⟨members, rfl⟩ := hmapping hbranch
    cases fuel with
    | zero => exact fun result ↦ .inr (hQ.stop result)
    | succ fuel =>
      apply hQ.detects_anyCounted (hreads fuel _) (mem_valueBranches hbranch)
      intro result
      unfold orElse
      split
      · exact .inl rfl
      · rw [valueBranches_fst]
        exact ih fuel _

end

/-! ## Command fields -/

/-- The places of a document that are reached from its root, with the documents that they are resolved in. -/
inductive Reaches (rootSchema : Json) : Json → Json → Prop where
  | root : Reaches rootSchema rootSchema rootSchema
  | property {base node properties value : Json} {name : String} :
      Reaches rootSchema base node → ("properties", properties) ∈ node.members → (name, value) ∈ properties.members →
        Reaches rootSchema (enter base node) value
  | items {base node value : Json} :
      Reaches rootSchema base node → ("items", value) ∈ node.members → Reaches rootSchema (enter base node) value
  | branch {base node branches value : Json} {key : String} :
      Reaches rootSchema base node → key ∈ listOfSubschemasKeywords → (key, branches) ∈ node.members →
        value ∈ branches.items → Reaches rootSchema (enter base node) value
  | ref {base node value : Json} {ref : String} :
      Reaches rootSchema base node → ("$ref", .str ref) ∈ node.members → resolve (enter base node) ref = some value →
        Reaches rootSchema (enter base node) value

/-- The schema of a property under a command key, or given to one by a pattern. -/
def CommandField (dialect : Dialect) (node field : Json) : Prop :=
  (∃ name properties, ("properties", properties) ∈ node.members ∧ (name, field) ∈ properties.members ∧
      normalizeMcpIdentifier name ∈ commandKeys) ∨
    ∃ pattern patterns, ("patternProperties", patterns) ∈ node.members ∧ (pattern, field) ∈ patterns.members ∧
      ∃ name, normalizeMcpIdentifier name ∈ commandKeys ∧ dialect.found pattern name = true

/-- A command field that accepts every string is reached. -/
def HasFreeCommandField (dialect : Dialect) (rootSchema : Json) : Prop :=
  ∃ base node field, Reaches rootSchema base node ∧ CommandField dialect node field ∧
    ∀ string, Accepts dialect (enter base node) field (.str string)

/-- A schema for objects. -/
def IsObjectSchema (schema : Json) : Prop :=
  isMapping schema = true ∧ ((get schema "type").isNone = true ∨
    schemaTypeIncludes (get schema "type") "object" = true)

namespace Descriptor

/-- The descriptor read in another order of the key sets. -/
def withOrder (descriptor : Descriptor) (order : KeyOrder) : Descriptor := { descriptor with order := order }

/-- In any order of the key sets in which no cap is hit, a command field that accepts every string is refused. -/
def RefusesCommandFields (dialect : Dialect) (descriptor : Descriptor) : Prop :=
  IsObjectSchema descriptor.inputSchema → HasFreeCommandField dialect descriptor.inputSchema →
    ∀ order, (descriptor.withOrder order).walk.evidence.capped = false →
      ∃ reason, (descriptor.withOrder order).validateMcpToolAdmission =
        .error (.permissionError descriptor.toolName reason)

end Descriptor

/-- A reference that is not there or can be followed. -/
def Followable (rootSchema : Json) (seenRefs : List String) (node : Json) : Prop :=
  ∀ ref, get node "$ref" = some ref → (followRef rootSchema seenRefs ref).isSome = true

/-- A command field that accepts every string and is recognised, at a place that the walk gets to. -/
inductive Exposes (dialect : Dialect) (compile : String → Option (String → Bool)) (rootSchema : Json) :
    List String → Json → Json → Prop where
  | property {seenRefs : List String} {base node field : Json} {properties : List (String × Json)} {name : String} :
      Followable rootSchema seenRefs node → get node "properties" = some (.obj properties) →
        (name, field) ∈ properties → normalizeMcpIdentifier name ∈ commandKeys →
          (∀ string, Accepts dialect (enter base node) field (.str string)) → Recognised rootSchema seenRefs field →
            Exposes dialect compile rootSchema seenRefs base node
  | pattern {seenRefs : List String} {base node field : Json} {patterns : List (String × Json)} {pattern : String}
      {search : String → Bool} {key : String} :
      Followable rootSchema seenRefs node → get node "patternProperties" = some (.obj patterns) →
        (pattern, field) ∈ patterns → compile pattern = some search → key ∈ categorizedKeys → search key = true →
          (∀ key ∈ categorizedKeys, search key = true → key ∈ commandKeys) →
            (∀ string, Accepts dialect (enter base node) field (.str string)) →
              Recognised rootSchema seenRefs field → Exposes dialect compile rootSchema seenRefs base node
  | nested {seenRefs : List String} {base node value : Json} {properties : List (String × Json)} {name : String} :
      Followable rootSchema seenRefs node → get node "properties" = some (.obj properties) →
        (name, value) ∈ properties → Exposes dialect compile rootSchema seenRefs (enter base node) value →
          Exposes dialect compile rootSchema seenRefs base node
  | items {seenRefs : List String} {base node value : Json} :
      Followable rootSchema seenRefs node → get node "items" = some value →
        Exposes dialect compile rootSchema seenRefs (enter base node) value →
          Exposes dialect compile rootSchema seenRefs base node
  | branch {seenRefs : List String} {base node value : Json} {branches : List Json} {key : String} :
      Followable rootSchema seenRefs node → key ∈ listOfSubschemasKeywords → get node key = some (.arr branches) →
        value ∈ branches → Exposes dialect compile rootSchema seenRefs (enter base node) value →
          Exposes dialect compile rootSchema seenRefs base node
  | ref {seenRefs : List String} {base node value : Json} {ref : String} :
      get node "$ref" = some (.str ref) → followRef rootSchema seenRefs (.str ref) = some (ref, value) →
        resolve (enter base node) ref = some value →
          Exposes dialect compile rootSchema (ref :: seenRefs) (enter base node) value →
            Exposes dialect compile rootSchema seenRefs base node

section

variable {dialect : Dialect} {walk : Walk} {seenRefs : List String} {base node : Json}

/-- A cap was hit, or a command key is recorded. -/
def CommandEvidence (result : SchemaWalkResult) : Prop := result.capped = true ∨ result.freeFormCommandKeys ≠ ∅

theorem lasting_commandEvidence : Lasting CommandEvidence where
  extend := by
    intro result next hextends hevidence
    rcases hevidence with hcapped | hcommand
    · exact .inl (hextends.capped hcapped)
    · obtain ⟨key, hkey⟩ := Finset.nonempty_iff_ne_empty.2 hcommand
      exact .inr (Finset.ne_empty_of_mem (hextends.command hkey))
  stop := fun _ ↦ .inl rfl

variable {field value : Json}

/-- A field that accepts every string and is recognised is recorded under its key. -/
theorem finds_considerProperty {fuel : ℕ} {rawKey : String} (hkey : normalizeMcpIdentifier rawKey ∈ commandKeys)
    (haccepts : ∀ string, Accepts dialect base field (.str string))
    (hrecognised : Recognised walk.rootSchema seenRefs field) :
    Finds CommandEvidence (walk.considerProperty (walk.walkSchema fuel) fuel seenRefs rawKey field) := by
  have hinfinite : (acceptedStrings dialect base field).Infinite := by
    have hall : acceptedStrings dialect base field = Set.univ := Set.eq_univ_of_forall haccepts
    rw [hall]
    exact Set.infinite_univ
  have hrecord : ∀ result : SchemaWalkResult,
      CommandEvidence (result.recordFreeFormKey (normalizeMcpIdentifier rawKey)) :=
    fun result ↦ .inr (Finset.ne_empty_of_mem (mem_command_recordFreeFormKey result hkey))
  have hcategorized : decide (normalizeMcpIdentifier rawKey ∈ categorizedKeys) = true := by
    apply decide_eq_true
    simp only [categorizedKeys, List.mem_append]
    exact .inl (.inl (.inl (.inl hkey)))
  rcases hrecognised.takes hinfinite with ⟨hleaf, htakes⟩ | hbranch
  · apply Lasting.finds_considerProperty_of_leaf hrecord
    · rintro ⟨-, hcontainer⟩
      rw [hleaf] at hcontainer
      cases hcontainer
    · rw [hcategorized]
      exact fun result ↦ .inl (htakes.isFreeForm walk.order fuel result)
  · by_cases hcontainer : isMapping field = true ∧ hasAnyKey objectContainerKeywords field = true
    · apply lasting_commandEvidence.finds_considerProperty_of_composition (Walk.grows_walkSchema fuel) hrecord
        hcontainer.1 hcontainer.2
      rw [hcategorized]
      exact lasting_commandEvidence.detects_composition hbranch (fuel + 1)
    · apply Lasting.finds_considerProperty_of_leaf hrecord hcontainer
      rw [hcategorized]
      exact fun result ↦ .inl ((takesStrings_of_infinite hinfinite).isFreeForm walk.order fuel result)

variable {key : String}

theorem isMapping_of_get (h : get node key = some value) : isMapping node = true := by
  cases node with
  | obj members => rfl
  | _ => cases h

theorem hasKey_of_get (h : get node key = some value) : node.hasKey key = true :=
  Json.hasKey_iff.2 ⟨value, members_of_get h⟩

theorem hasAnyKey_of_get {keys : List String} (hkey : key ∈ keys) (h : get node key = some value) :
    hasAnyKey keys node = true :=
  List.any_eq_true.2 ⟨key, hkey, hasKey_of_get h⟩

/-- A pattern that is only found in command keys, and in one, stands for a command key. -/
theorem finds_considerPattern {fuel : ℕ} {pattern : String} {search : String → Bool}
    (hcompile : walk.compile pattern = some search) (hkey : key ∈ categorizedKeys) (hsearch : search key = true)
    (honly : ∀ key ∈ categorizedKeys, search key = true → key ∈ commandKeys)
    (haccepts : ∀ string, Accepts dialect base field (.str string))
    (hrecognised : Recognised walk.rootSchema seenRefs field) :
    Finds CommandEvidence (walk.considerPattern (walk.walkSchema fuel) fuel seenRefs (pattern, field)) := by
  intro result
  simp only [Walk.considerPattern, hcompile]
  split
  · next matchedKey hfind =>
    have hmatched : matchedKey ∈ commandKeys := by
      apply honly
      · exact walk.order.categorized_perm.mem_iff.1 (List.mem_of_find?_eq_some hfind)
      · exact List.find?_some hfind
    have hnormal : normalizeMcpIdentifier matchedKey = matchedKey := by
      have hall : ∀ key ∈ commandKeys, normalizeMcpIdentifier key = key := by decide +kernel
      exact hall matchedKey hmatched
    exact finds_considerProperty (hnormal.symm ▸ hmatched) haccepts hrecognised result
  · next hfind =>
    have hnone := List.find?_eq_none.1 hfind key (walk.order.categorized_perm.mem_iff.2 hkey)
    exact absurd hsearch hnone

/-- What holds further schemas has a key that makes it walked as a property. -/
theorem Exposes.hasAnyKey {compile : String → Option (String → Bool)} {rootSchema : Json}
    (h : Exposes dialect compile rootSchema seenRefs base node) :
    isMapping node = true ∧ (hasAnyKey objectContainerKeywords node = true ∨
      Mcp.hasAnyKey arrayItemKeywords node = true) := by
  cases h with
  | property _ hget => exact ⟨isMapping_of_get hget, .inl (hasAnyKey_of_get (by decide) hget)⟩
  | pattern _ hget => exact ⟨isMapping_of_get hget, .inl (hasAnyKey_of_get (by decide) hget)⟩
  | nested _ hget => exact ⟨isMapping_of_get hget, .inl (hasAnyKey_of_get (by decide) hget)⟩
  | items _ hget => exact ⟨isMapping_of_get hget, .inr (hasAnyKey_of_get (by decide) hget)⟩
  | @branch _ _ _ _ _ key _ hkey hget =>
    refine ⟨isMapping_of_get hget, ?_⟩
    have hkeys : ∀ key ∈ listOfSubschemasKeywords, key ∈ objectContainerKeywords ∨ key ∈ arrayItemKeywords := by decide
    rcases hkeys key hkey with hcontainer | harray
    · exact .inl (hasAnyKey_of_get hcontainer hget)
    · exact .inr (hasAnyKey_of_get harray hget)
  | ref hget => exact ⟨isMapping_of_get hget, .inl (hasAnyKey_of_get (by decide) hget)⟩

/-- The walk records a command key wherever a field is exposed below. -/
theorem Exposes.finds_walkSchema (h : Exposes dialect walk.compile walk.rootSchema seenRefs base node) (fuel : ℕ) :
    Finds CommandEvidence (walk.walkSchema fuel seenRefs node) := by
  induction h generalizing fuel with
  | @property seenRefs base node field properties name hfollow hget hmem hkey haccepts hrecognised =>
    cases fuel with
    | zero => exact fun result ↦ lasting_commandEvidence.stop result
    | succ fuel =>
      apply lasting_commandEvidence.finds_walkSchema (isMapping_of_get hget) hfollow
      apply lasting_commandEvidence.finds_walkSiblings (Walk.grows_walkSchema fuel)
      refine .inr (.inr (.inl ?_))
      apply lasting_commandEvidence.finds_walkProperties (Walk.grows_walkSchema fuel) hget hmem
      exact finds_considerProperty hkey haccepts hrecognised
  | @pattern seenRefs base node field patterns pattern search key hfollow hget hmem hcompile hkey hsearch honly haccepts
      hrecognised =>
    cases fuel with
    | zero => exact fun result ↦ lasting_commandEvidence.stop result
    | succ fuel =>
      apply lasting_commandEvidence.finds_walkSchema (isMapping_of_get hget) hfollow
      apply lasting_commandEvidence.finds_walkSiblings (Walk.grows_walkSchema fuel)
      refine .inr (.inr (.inr ?_))
      apply lasting_commandEvidence.finds_walkPatternProperties (Walk.grows_walkSchema fuel) hget hmem
      exact finds_considerPattern hcompile hkey hsearch honly haccepts hrecognised
  | @nested seenRefs base node value properties name hfollow hget hmem hvalue ih =>
    cases fuel with
    | zero => exact fun result ↦ lasting_commandEvidence.stop result
    | succ fuel =>
      apply lasting_commandEvidence.finds_walkSchema (isMapping_of_get hget) hfollow
      apply lasting_commandEvidence.finds_walkSiblings (Walk.grows_walkSchema fuel)
      refine .inr (.inr (.inl ?_))
      apply lasting_commandEvidence.finds_walkProperties (Walk.grows_walkSchema fuel) hget hmem
      exact lasting_commandEvidence.finds_considerProperty_of_walk hvalue.hasAnyKey.1 hvalue.hasAnyKey.2 (ih fuel)
  | @items seenRefs base node value hfollow hget hvalue ih =>
    cases fuel with
    | zero => exact fun result ↦ lasting_commandEvidence.stop result
    | succ fuel =>
      apply lasting_commandEvidence.finds_walkSchema (isMapping_of_get hget) hfollow
      apply lasting_commandEvidence.finds_walkSiblings (Walk.grows_walkSchema fuel)
      refine .inr (.inl ?_)
      cases value with
      | obj members => exact lasting_commandEvidence.finds_walkItems (Walk.grows_walkSchema fuel) hget (ih fuel)
      | _ => cases hvalue.hasAnyKey.1
  | @branch seenRefs base node value branches key hfollow hkey hget hmem hvalue ih =>
    cases fuel with
    | zero => exact fun result ↦ lasting_commandEvidence.stop result
    | succ fuel =>
      apply lasting_commandEvidence.finds_walkSchema (isMapping_of_get hget) hfollow
      apply lasting_commandEvidence.finds_walkSiblings (Walk.grows_walkSchema fuel)
      exact .inl (lasting_commandEvidence.finds_walkCompositions (Walk.grows_walkSchema fuel) hkey hget hmem (ih fuel))
  | @ref seenRefs base node value ref hget hfollow hresolve hvalue ih =>
    cases fuel with
    | zero => exact fun result ↦ lasting_commandEvidence.stop result
    | succ fuel => exact lasting_commandEvidence.finds_walkSchema_of_ref (isMapping_of_get hget) hget hfollow (ih fuel)

end

namespace Descriptor

variable {dialect : Dialect} {descriptor : Descriptor}

/-- A command field that accepts every string is refused where one is exposed and the sufficiency proofs do not
raise. -/
theorem refusesCommandFields_of_exposes
    (hraise : schemaIsInsufficient descriptor.inputSchema ≠ .typeError)
    (h : HasFreeCommandField dialect descriptor.inputSchema →
      Exposes dialect descriptor.compile descriptor.inputSchema [] descriptor.inputSchema descriptor.inputSchema) :
    descriptor.RefusesCommandFields dialect := by
  intro hobject hfield order hcapped
  have hwalk : (descriptor.withOrder order).walk.evidence =
      (descriptor.withOrder order).walk.walkSchema (maxSchemaWalkDepth + 1) [] descriptor.inputSchema {} :=
    if_pos hobject
  have hevidence : CommandEvidence (descriptor.withOrder order).walk.evidence := by
    rw [hwalk]
    exact Exposes.finds_walkSchema (h hfield) (maxSchemaWalkDepth + 1) {}
  have hcommand := hevidence.resolve_left (by rw [hcapped]; exact Bool.false_ne_true)
  refine ⟨.unboundedCommandInput, ?_⟩
  have hclassify : (descriptor.withOrder order).classifyGenericExecutor = .ok (some .unboundedCommandInput) := by
    have hproofs : schemaIsInsufficient (descriptor.withOrder order).inputSchema ≠ .typeError := hraise
    unfold classifyGenericExecutor
    simp only [if_neg hproofs, if_pos hcommand]
  unfold validateMcpToolAdmission
  rw [hclassify]
  rfl

/-- A tool with one property, where patterns are literals. -/
def withProperty (toolName name : String) (propSchema : Json) : Descriptor where
  compile pattern := some fun string ↦ decide (pattern.toList <:+: string.toList)
  order := ⟨categorizedKeys, singleSubschemaKeywords, .refl _, .refl _⟩
  toolName := toolName
  inputSchema := .obj [("type", .str "object"), ("properties", .obj [(name, propSchema)]),
    ("additionalProperties", .bool false)]
  description := none

/-- Patterns as literals, and nothing known of what leaves the document. -/
def literalDialect : Dialect where
  found pattern string := decide (pattern.toList <:+: string.toList)
  other _ _ _ _ := none

theorem refusesCommandFields_anyOf :
    (withProperty "deploy" "command" (.obj [("anyOf", .arr [.obj [("type", .str "string")],
      .obj [("type", .str "null")]])])).RefusesCommandFields literalDialect := by
  apply refusesCommandFields_of_exposes
  · decide +kernel
  · intro _
    apply Exposes.property (fun ref href ↦ by cases href) rfl (List.mem_singleton_self _)
    · decide +kernel
    · exact fun string ↦ ⟨3, rfl⟩
    · exact .inr (.inl rfl)

/-- A schema with object keywords only accepts every string, and is not seen. -/
theorem not_refusesCommandFields :
    ¬ (withProperty "deploy" "command" (.obj [("properties", .obj [])])).RefusesCommandFields literalDialect := by
  intro h
  obtain ⟨reason, hrefused⟩ := h ⟨rfl, .inr (by decide +kernel)⟩
    ⟨_, _, .obj [("properties", .obj [])], .root,
      .inl ⟨"command", _, List.mem_cons_of_mem _ List.mem_cons_self, List.mem_cons_self, by decide +kernel⟩,
      fun string ↦ ⟨2, rfl⟩⟩
    ⟨categorizedKeys, singleSubschemaKeywords, .refl _, .refl _⟩ (by decide +kernel)
  have hadmitted : (withProperty "deploy" "command" (.obj [("properties", .obj [])])).validateMcpToolAdmission =
      .ok () := by decide +kernel
  cases hrefused.symm.trans hadmitted

end Descriptor

end Lionagi.Service.Mcp
