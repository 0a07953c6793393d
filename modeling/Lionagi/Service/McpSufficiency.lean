import Lionagi.Service.McpSchema

/-!
# What a sufficient schema is

What the two proofs of sufficiency say of a node that they accept, and of the nodes that they go on to.
-/

namespace Lionagi.Service.Mcp

section

variable {α : Type} {check : α → ℕ → Verdict × ℕ}

theorem sufficient_of_checkAll {as : List α} {budget : ℕ} (h : (checkAll check as budget).1 = .sufficient) {a : α}
    (ha : a ∈ as) : ∃ budget, (check a budget).1 = .sufficient := by
  induction as generalizing budget with
  | nil => exact absurd ha List.not_mem_nil
  | cons first as ih =>
    unfold checkAll at h
    split at h
    · next next hcheck =>
      rcases List.mem_cons.1 ha with rfl | hrest
      · exact ⟨budget, congrArg Prod.fst hcheck⟩
      · exact ih h hrest
    · next verdict next hne hcheck => exact (hne h).elim

theorem sufficient_of_checkAny {as : List α} {budget : ℕ} (h : (checkAny check as budget).1 = .sufficient) :
    ∃ a ∈ as, ∃ budget, (check a budget).1 = .sufficient := by
  induction as generalizing budget with
  | nil => cases h
  | cons first as ih =>
    unfold checkAny at h
    split at h
    · obtain ⟨a, ha, hcheck⟩ := ih h
      exact ⟨a, List.mem_cons_of_mem _ ha, hcheck⟩
    · next verdict next hne hcheck =>
      exact ⟨first, List.mem_cons_self, budget, (congrArg Prod.fst hcheck).trans h⟩

end

/-! ## Object boundedness -/

/-- The type of a node is absent or allows objects, and a union without an enumeration no free-form type. -/
structure TypeGate (schema : Json) : Prop where
  object : ∀ value, get schema "type" = some value → schemaTypeIncludes (some value) "object" = true
  union : isPinned schema = false → ∀ names, get schema "type" = some (.arr names) → ∀ name, .str name ∈ names →
    name ∉ unboundedNonObjectTypes

theorem not_mem_of_anyFreeFormType {names : List Json} (h : anyFreeFormType names = .sufficient) {name : String}
    (hname : .str name ∈ names) : name ∉ unboundedNonObjectTypes := by
  induction names with
  | nil => exact absurd hname List.not_mem_nil
  | cons first names ih =>
    cases first with
    | str found =>
      rw [anyFreeFormType] at h
      split at h
      · cases h
      · next hfound =>
        rcases List.mem_cons.1 hname with heq | hrest
        · cases heq
          exact hfound
        · exact ih h hrest
    | arr items => cases h
    | obj members => cases h
    | _ =>
      rw [anyFreeFormType] at h
      · rcases List.mem_cons.1 hname with heq | hrest
        · cases heq
        · exact ih h hrest
      all_goals simp

/-- What a node with closed properties is. -/
structure LeafObject (nested : Json → ℕ → Verdict × ℕ) (schema : Json) : Prop where
  typed : (get schema "type").isSome = true
  closed : objectClosed (get schema "additionalProperties") = true
  properties : ∀ value, schema.lookup "properties" = some value → isMapping value = true
  shaped : ∀ value, schema.lookup "properties" = some value → ∀ name prop, (name, prop) ∈ value.members →
    propertyValueMayBeObjectShaped prop = true → ∃ budget, (nested prop budget).1 = .sufficient

variable {budget : ℕ} {nested : Json → ℕ → Verdict × ℕ} {schema : Json}

theorem leafObject_of_sufficient (h : (leafObjectInsufficient nested schema budget).1 = .sufficient) :
    LeafObject nested schema := by
  unfold leafObjectInsufficient at h
  split at h
  · cases h
  · next htype =>
    split at h
    · cases h
    · next hproperties =>
      have hmapping : ∀ value, schema.lookup "properties" = some value → isMapping value = true := by
        intro value hlookup
        rw [← Json.lookup_isSome, hlookup, Option.isSome_some, Bool.true_and, Option.any_some, Bool.not_eq_true',
          Bool.not_eq_false] at hproperties
        exact hproperties
      have htyped : (get schema "type").isSome = true := Option.isSome_iff_ne_none.2 htype
      split at h
      · next hempty =>
        split at h
        · next hclosed =>
          refine ⟨htyped, by rw [hclosed]; rfl, hmapping, fun value hlookup name prop hprop ↦ ?_⟩
          rw [hlookup, Option.elim_some] at hempty
          rw [hempty] at hprop
          exact absurd hprop List.not_mem_nil
        · cases h
      · split at h
        · next hclosed =>
          refine ⟨htyped, hclosed, hmapping, fun value hlookup name prop hprop hshaped ↦ ?_⟩
          have hmem : (name, prop) ∈ (schema.lookup "properties").elim [] Json.members := by
            rw [hlookup]
            exact hprop
          obtain ⟨spent, hcheck⟩ := sufficient_of_checkAll h hmem
          rw [if_pos hshaped] at hcheck
          exact ⟨spent, hcheck⟩
        · cases h

/-- What a node without a reference is. -/
inductive Composed (nested : Json → ℕ → Verdict × ℕ) (schema : Json) : Prop where
  | union (key : String) (branches : List Json) :
      key ∈ ["oneOf", "anyOf"] → get schema key = some (.arr branches) →
        (∀ branch ∈ branches, ∃ budget, (nested branch budget).1 = .sufficient) → Composed nested schema
  | intersection (branches : List Json) (branch : Json) :
      get schema "allOf" = some (.arr branches) → branch ∈ branches →
        (∃ budget, (nested branch budget).1 = .sufficient) → Composed nested schema
  | pinned : isPinned schema = true → Composed nested schema
  | leaf : isPinned schema = false → LeafObject nested schema → Composed nested schema

/-- Every branch of a union must prove bounded. -/
def unionInsufficient (nested : Json → ℕ → Verdict × ℕ) (branches : Json) (budget : ℕ) : Verdict × ℕ :=
  match branches with
  | .arr (branch :: branches) =>
    checkAll (fun branch budget ↦ if isMapping branch then nested branch budget else (.insufficient, budget))
      (branch :: branches) budget
  | _ => (.insufficient, budget)

theorem composed_of_sufficient (h : (composedInsufficient nested schema budget).1 = .sufficient) :
    Composed nested schema := by
  have hunion : ∀ {key : String} {branches : Json}, key ∈ ["oneOf", "anyOf"] → get schema key = some branches →
      (unionInsufficient nested branches budget).1 = .sufficient → Composed nested schema := by
    intro key branches hkey hget hcheck
    unfold unionInsufficient at hcheck
    split at hcheck
    · next first rest =>
      refine .union key (first :: rest) hkey hget fun branch hbranch ↦ ?_
      obtain ⟨spent, hbranchCheck⟩ := sufficient_of_checkAll hcheck hbranch
      split at hbranchCheck
      · exact ⟨spent, hbranchCheck⟩
      · cases hbranchCheck
    · cases hcheck
  have hrest : (if isPinned schema then (Verdict.sufficient, budget)
      else leafObjectInsufficient nested schema budget).1 = .sufficient → Composed nested schema := by
    intro hcheck
    split at hcheck
    · next hpinned => exact .pinned hpinned
    · next hpinned => exact .leaf (Bool.not_eq_true _ ▸ hpinned) (leafObject_of_sufficient hcheck)
  unfold composedInsufficient at h
  simp only at h
  split at h
  · next branches _ _ hget => exact hunion List.mem_cons_self hget h
  · next branches _ hone hget => exact hunion (List.mem_cons_of_mem _ List.mem_cons_self) hget h
  · next first rest _ _ hget =>
    split at h
    · exact hrest h
    · obtain ⟨branch, hbranch, spent, hcheck⟩ := sufficient_of_checkAny h
      split at hcheck
      · exact .intersection (first :: rest) branch hget hbranch ⟨spent, hcheck⟩
      · cases hcheck
  · exact hrest h

section

variable {rootSchema : Json}

/-- What a node is, and on what the proof goes on with its fuel. -/
inductive Sufficient (rootSchema : Json) (fuel : ℕ) (seenRefs : List String) (schema : Json) : Prop where
  | ref (ref : Json) (followed : String) (resolved : Json) :
      get schema "$ref" = some ref → followRef rootSchema seenRefs ref = some (followed, resolved) →
        (∃ budget, (objectBoundednessInsufficient rootSchema fuel (followed :: seenRefs) resolved budget).1 =
          .sufficient) → Sufficient rootSchema fuel seenRefs schema
  | siblings (ref : Json) (followed : String) :
      get schema "$ref" = some ref →
        (∃ budget, (objectBoundednessInsufficient rootSchema fuel (followed :: seenRefs) (refSiblings schema)
          budget).1 = .sufficient) → Sufficient rootSchema fuel seenRefs schema
  | composed :
      Composed (fun branch budget ↦ objectBoundednessInsufficient rootSchema fuel seenRefs branch budget) schema →
        Sufficient rootSchema fuel seenRefs schema

theorem sufficient_of_objectBoundedness {fuel : ℕ} {seenRefs : List String}
    (h : (objectBoundednessInsufficient rootSchema fuel seenRefs schema budget).1 = .sufficient) :
    TypeGate schema ∧ ∃ less, fuel = less + 1 ∧ Sufficient rootSchema less seenRefs schema := by
  cases fuel with
  | zero => cases h
  | succ fuel =>
    unfold objectBoundednessInsufficient at h
    split at h
    · cases h
    · split at h
      · cases h
      · next htype =>
        split at h
        · next hfree => exact absurd h hfree
        · next hfree =>
          refine ⟨⟨fun value hvalue ↦ ?_, fun hpinned names hnames name hname ↦ ?_⟩, fuel, rfl, ?_⟩
          · rw [hvalue, Option.isSome_some, Bool.true_and, Bool.not_eq_true', Bool.not_eq_false] at htype
            exact htype
          · rw [nodeHasFreeFormAlternative, hnames, not_not] at hfree
            simp only [typeUnionHasFreeFormAlternative, hpinned, Bool.false_eq_true, if_false] at hfree
            exact not_mem_of_anyFreeFormType hfree hname
          · split at h
            · next ref href =>
              split at h
              · cases h
              · next followed resolved hfollow =>
                split at h
                · split at h
                  · exact .siblings ref followed href ⟨_, h⟩
                  · cases h
                · next verdict spent _ hcheck =>
                  exact .ref ref followed resolved href hfollow ⟨_, (congrArg Prod.fst hcheck).trans h⟩
            · exact .composed (composed_of_sufficient h)

end

/-! ## Structural coverage -/

/-- The coverage proof accepts the node, from some point on. -/
def Covers (rootSchema node : Json) : Prop :=
  ∃ fuel seenRefs budget, (structuralCoverageInsufficient rootSchema fuel seenRefs node budget).1 = .sufficient

namespace Covers

variable {rootSchema node : Json}

theorem isMapping (h : Covers rootSchema node) : Mcp.isMapping node = true := by
  obtain ⟨fuel, seenRefs, budget, h⟩ := h
  cases fuel with
  | zero => cases h
  | succ fuel =>
    unfold structuralCoverageInsufficient at h
    split at h
    · cases h
    · split at h
      · rfl
      · cases h

variable {key : String}

theorem keyword (h : Covers rootSchema node) {value : Json} (hmember : (key, value) ∈ node.members) :
    ∃ fuel seenRefs budget, (coversKeyword rootSchema (structuralCoverageInsufficient rootSchema fuel) seenRefs node key
      value budget).1 = .sufficient := by
  obtain ⟨fuel, seenRefs, budget, h⟩ := h
  cases fuel with
  | zero => cases h
  | succ fuel =>
    unfold structuralCoverageInsufficient at h
    split at h
    · cases h
    · split at h
      · next members =>
        obtain ⟨spent, hcheck⟩ := sufficient_of_checkAll h hmember
        exact ⟨fuel, seenRefs, spent, hcheck⟩
      · cases h

/-- A denied keyword only stands in a bounded array. -/
theorem denied (h : Covers rootSchema node) (hdenied : classifyKeyword key = .denied) (hkey : node.hasKey key = true) :
    key ∈ ["items", "prefixItems", "unevaluatedItems"] ∧
      propertyIsBounded node = true := by
  obtain ⟨value, hmember⟩ := Json.hasKey_iff.1 hkey
  obtain ⟨fuel, seenRefs, budget, hcheck⟩ := h.keyword hmember
  unfold coversKeyword at hcheck
  split at hcheck
  · next hbounded => exact hbounded
  · rw [hdenied] at hcheck
    cases hcheck

/-- A modeled keyword is covered by what it applies. -/
theorem applicator (h : Covers rootSchema node) {value : Json} (hmodeled : classifyKeyword key = .modeled)
    (hmember : (key, value) ∈ node.members) : ∃ fuel seenRefs budget,
      (coversApplicator rootSchema (structuralCoverageInsufficient rootSchema fuel) seenRefs key value budget).1 =
        .sufficient := by
  obtain ⟨fuel, seenRefs, budget, hcheck⟩ := h.keyword hmember
  have hitems : key ∉ ["items", "prefixItems", "unevaluatedItems"] := by
    have hdenied : ∀ key ∈ ["items", "prefixItems", "unevaluatedItems"], classifyKeyword key = .denied := by decide
    intro hmem
    rw [hdenied key hmem] at hmodeled
    cases hmodeled
  unfold coversKeyword at hcheck
  rw [if_neg fun hboth ↦ hitems hboth.1, hmodeled] at hcheck
  exact ⟨fuel, seenRefs, budget, hcheck⟩

theorem property (h : Covers rootSchema node) {properties prop : Json} {name : String}
    (hmember : ("properties", properties) ∈ node.members) (hprop : (name, prop) ∈ properties.members) :
    Covers rootSchema prop := by
  obtain ⟨fuel, seenRefs, budget, hcheck⟩ := h.applicator (by decide) hmember
  cases properties with
  | obj props =>
    obtain ⟨spent, hprop⟩ := sufficient_of_checkAll hcheck hprop
    exact ⟨fuel, seenRefs, spent, hprop⟩
  | _ => exact absurd hprop List.not_mem_nil

theorem branch (h : Covers rootSchema node) (hkey : key ∈ ["allOf", "anyOf", "oneOf"]) {branches : List Json}
    (hmember : (key, .arr branches) ∈ node.members) {branch : Json} (hbranch : branch ∈ branches) :
    Covers rootSchema branch := by
  have hclass : ∀ key ∈ ["allOf", "anyOf", "oneOf"], classifyKeyword key = .modeled ∧ key ≠ "properties" ∧
      key ≠ "additionalProperties" ∧ (key = "allOf" ∨ key = "anyOf" ∨ key = "oneOf") := by decide
  obtain ⟨hmodeled, hproperties, hadditional, hcomposition⟩ := hclass key hkey
  obtain ⟨fuel, seenRefs, budget, hcheck⟩ := h.applicator hmodeled hmember
  unfold coversApplicator at hcheck
  rw [if_neg hproperties, if_neg hadditional, if_pos hcomposition] at hcheck
  cases branches with
  | nil => exact absurd hbranch List.not_mem_nil
  | cons first branches =>
    obtain ⟨spent, hcheckBranch⟩ := sufficient_of_checkAll hcheck hbranch
    split at hcheckBranch
    · exact ⟨fuel, seenRefs, spent, hcheckBranch⟩
    · cases hcheckBranch

theorem ref (h : Covers rootSchema node) {ref : Json} (hmember : ("$ref", ref) ∈ node.members) :
    ∃ seenRefs followed resolved, followRef rootSchema seenRefs ref = some (followed, resolved) ∧
      Covers rootSchema resolved := by
  obtain ⟨fuel, seenRefs, budget, hcheck⟩ := h.applicator (by decide) hmember
  unfold coversApplicator at hcheck
  rw [if_neg (by decide), if_neg (by decide), if_neg (by decide), if_pos rfl] at hcheck
  split at hcheck
  · next followed resolved hfollow => exact ⟨seenRefs, followed, resolved, hfollow, fuel, _, _, hcheck⟩
  · cases hcheck

end Covers

theorem followRef_unique {rootSchema ref : Json} {seenRefs otherRefs : List String} {followed other : String × Json}
    (h : followRef rootSchema seenRefs ref = some followed) (h' : followRef rootSchema otherRefs ref = some other) :
    followed = other := by
  unfold followRef at h h'
  cases ref with
  | str ref =>
    simp only at h h'
    split at h
    · split at h'
      · exact Option.some.inj (h.symm.trans h')
      · cases h'
    · cases h
  | _ => cases h

end Lionagi.Service.Mcp
