import Lionagi.Service.McpAdmission

/-!
# Evidence of the walk

The walk only adds to its result. So evidence that one place adds whenever it is reached is in the result of every
walk that reaches the place: `Lasting` evidence is not lost again, and counts as found where a cap stops the walk.
-/

namespace Lionagi.Service.Mcp

namespace SchemaWalkResult

/-- Everything found is still there. -/
structure Extends (result next : SchemaWalkResult) : Prop where
  command : result.freeFormCommandKeys ⊆ next.freeFormCommandKeys
  program : result.freeFormProgramKeys ⊆ next.freeFormProgramKeys
  argument : result.freeFormArgumentKeys ⊆ next.freeFormArgumentKeys
  payload : result.freeFormPayloadKeys ⊆ next.freeFormPayloadKeys
  nonAuxiliary : result.nonAuxiliaryFreeFormKeys ⊆ next.nonAuxiliaryFreeFormKeys
  nonIdentifier : result.nonIdentifierFreeFormKeys ⊆ next.nonIdentifierFreeFormKeys
  unresolvable : result.unresolvable = true → next.unresolvable = true
  capped : result.capped = true → next.capped = true

theorem Extends.refl (result : SchemaWalkResult) : result.Extends result :=
  ⟨subset_rfl, subset_rfl, subset_rfl, subset_rfl, subset_rfl, subset_rfl, id, id⟩

theorem Extends.trans {first second third : SchemaWalkResult} (h : first.Extends second)
    (h' : second.Extends third) : first.Extends third where
  command := h.command.trans h'.command
  program := h.program.trans h'.program
  argument := h.argument.trans h'.argument
  payload := h.payload.trans h'.payload
  nonAuxiliary := h.nonAuxiliary.trans h'.nonAuxiliary
  nonIdentifier := h.nonIdentifier.trans h'.nonIdentifier
  unresolvable := h'.unresolvable ∘ h.unresolvable
  capped := h'.capped ∘ h.capped

theorem extends_stop (result : SchemaWalkResult) : result.Extends result.stop :=
  { Extends.refl result with
    unresolvable := fun _ ↦ rfl
    capped := fun _ ↦ rfl }

theorem extends_markUnresolvable (result : SchemaWalkResult) : result.Extends result.markUnresolvable :=
  { Extends.refl result with unresolvable := fun _ ↦ rfl }

theorem extends_visit (result : SchemaWalkResult) : result.Extends result.visit := { Extends.refl result with }

theorem extends_consumeNodeBudget (result : SchemaWalkResult) : result.Extends result.consumeNodeBudget.2 := by
  unfold consumeNodeBudget
  split
  · exact (extends_visit result).trans (extends_stop _)
  · exact extends_visit result

theorem extends_recordCategory (result : SchemaWalkResult) (normKey : String) :
    result.Extends (result.recordCategory normKey) := by
  unfold recordCategory
  split
  · exact { Extends.refl result with command := Finset.subset_insert _ _ }
  · split
    · exact { Extends.refl result with program := Finset.subset_insert _ _ }
    · split
      · exact { Extends.refl result with argument := Finset.subset_insert _ _ }
      · split
        · exact { Extends.refl result with payload := Finset.subset_insert _ _ }
        · exact Extends.refl result

theorem extends_recordNonAuxiliary (result : SchemaWalkResult) (normKey : String) :
    result.Extends (result.recordNonAuxiliary normKey) := by
  unfold recordNonAuxiliary
  split
  · exact Extends.refl result
  · refine { Extends.refl result with nonAuxiliary := Finset.subset_insert _ _, nonIdentifier := ?_ }
    simp only
    split
    · exact Finset.subset_insert _ _
    · exact subset_rfl

theorem extends_recordFreeFormKey (result : SchemaWalkResult) (normKey : String) :
    result.Extends (result.recordFreeFormKey normKey) :=
  (extends_recordCategory result normKey).trans (extends_recordNonAuxiliary _ normKey)

theorem mem_command_recordFreeFormKey (result : SchemaWalkResult) {normKey : String} (h : normKey ∈ commandKeys) :
    normKey ∈ (result.recordFreeFormKey normKey).freeFormCommandKeys := by
  apply (extends_recordNonAuxiliary _ normKey).command
  rw [recordCategory, if_pos h]
  exact Finset.mem_insert_self _ _

theorem mem_nonIdentifier_recordFreeFormKey (result : SchemaWalkResult) {normKey : String}
    (hauxiliary : normKey ∉ auxiliaryKeys)
    (hidentifier : (isExecTaintedKey normKey || !isIdentifierLikeKey normKey) = true) :
    normKey ∈ (result.recordFreeFormKey normKey).nonIdentifierFreeFormKeys := by
  rw [recordFreeFormKey, recordNonAuxiliary, if_neg hauxiliary]
  simp only [if_pos hidentifier]
  exact Finset.mem_insert_self _ _

end SchemaWalkResult

open SchemaWalkResult

/-! ## The result only grows -/

/-- A step that only adds to the result. -/
def Grows (step : SchemaWalkResult → SchemaWalkResult) : Prop :=
  ∀ result : SchemaWalkResult, result.Extends (step result)

/-- A reading that only adds to the result. -/
def Reads (reading : Reading) : Prop :=
  ∀ result : SchemaWalkResult, result.Extends (reading result).2

theorem reads_anyReading {α : Type} {reading : α → Reading} (h : ∀ a, Reads (reading a)) (as : List α) :
    Reads (anyReading reading as) := by
  induction as with
  | nil => exact Extends.refl
  | cons a as ih =>
    intro result
    have hfirst := h a result
    unfold anyReading
    split
    · next hread => exact hread ▸ hfirst
    · next hread =>
      rw [hread] at hfirst
      exact hfirst.trans (ih _)

theorem reads_anyCounted {α : Type} {reading : α → Reading} (h : ∀ a, Reads (reading a)) (as : List α) :
    Reads (anyCounted reading as) := by
  induction as with
  | nil => exact Extends.refl
  | cons a as ih =>
    intro result
    have hcount := extends_consumeNodeBudget result
    unfold anyCounted
    split
    · next hconsume => exact hconsume ▸ hcount
    · next counted hconsume =>
      rw [hconsume] at hcount
      have hfirst := h a counted
      split
      · next hread => exact hcount.trans (hread ▸ hfirst)
      · next hread =>
        rw [hread] at hfirst
        exact hcount.trans (hfirst.trans (ih _))

theorem reads_eachWithin {α : Type} {step : α → SchemaWalkResult → SchemaWalkResult} (h : ∀ a, Grows (step a))
    (as : List α) : Reads (eachWithin step as) := by
  induction as with
  | nil => exact Extends.refl
  | cons a as ih =>
    intro result
    have hcount := extends_consumeNodeBudget result
    unfold eachWithin
    split
    · next hconsume => exact hconsume ▸ hcount
    · next counted hconsume =>
      rw [hconsume] at hcount
      exact hcount.trans ((h a counted).trans (ih _))

theorem grows_eachCounted {α : Type} {step : α → SchemaWalkResult → SchemaWalkResult} (h : ∀ a, Grows (step a))
    (as : List α) : Grows (eachCounted step as) :=
  reads_eachWithin h as

theorem grows_markUnknownSchemaKeywords (schema : Json) : Grows (markUnknownSchemaKeywords schema) := by
  intro result
  unfold markUnknownSchemaKeywords
  split
  · exact extends_markUnresolvable result
  · simp only
    exact { Extends.refl result with unresolvable := fun h ↦ by rw [h, Bool.true_or] }

section

variable {order : KeyOrder} {rootSchema : Json}

theorem reads_arrayReachesFreeForm {item : Json → Reading} (h : ∀ node, Reads (item node)) (arraySchema : Json) :
    Reads (arrayReachesFreeForm item arraySchema) := by
  intro result
  have hplaces := reads_anyReading h ((get arraySchema "prefixItems").elim [] Json.items) result
  unfold arrayReachesFreeForm
  split
  · next hread => exact hread ▸ hplaces
  · next hread =>
    rw [hread] at hplaces
    split
    · exact hplaces
    · exact hplaces
    · exact hplaces.trans (h _ _)

theorem reads_itemReachesFreeForm {nested branch : List String → Json → Reading}
    (hnested : ∀ seenRefs node, Reads (nested seenRefs node)) (hbranch : ∀ seenRefs node, Reads (branch seenRefs node))
    (seenRefs : List String) (itemSchema : Json) :
    Reads (itemReachesFreeForm order rootSchema nested branch seenRefs itemSchema) := by
  intro result
  have hcount := extends_consumeNodeBudget result
  unfold itemReachesFreeForm
  split
  · next hconsume =>
    rw [hconsume] at hcount
    exact hcount
  · next counted hconsume =>
    rw [hconsume] at hcount
    apply hcount.trans
    split
    · exact Extends.refl counted
    · split
      · split
        · exact Extends.refl counted
        · split
          · exact reads_arrayReachesFreeForm (hnested seenRefs) itemSchema counted
          · exact Extends.refl counted
      · simp only
        split
        · split
          · exact reads_anyReading (hbranch _) _ counted
          · exact Extends.refl counted
        · split
          · exact Extends.refl counted
          · exact reads_anyReading (hbranch _) _ counted

theorem reads_itemSchemaReachesFreeFormString (fuel : ℕ) (seenRefs : List String) (itemSchema : Json) :
    Reads (itemSchemaReachesFreeFormString order rootSchema fuel seenRefs itemSchema) := by
  induction fuel using Nat.twoStepInduction generalizing seenRefs itemSchema with
  | zero => cases itemSchema with
    | obj members => exact extends_stop
    | _ => exact Extends.refl
  | one => cases itemSchema with
    | obj members =>
      apply reads_itemReachesFreeForm
      · intro seenRefs node
        cases node with
        | obj members => exact extends_stop
        | _ => exact Extends.refl
      · intro seenRefs node
        cases node with
        | obj members => exact extends_stop
        | _ => exact Extends.refl
    | _ => exact Extends.refl
  | more fuel ih ih' => cases itemSchema with
    | obj members => exact reads_itemReachesFreeForm ih ih' seenRefs (.obj members)
    | _ => exact Extends.refl

theorem reads_propertyIsFreeForm (fuel : ℕ) (isCategorizedKey : Bool) (seenRefs : List String) (propSchema : Json) :
    Reads (propertyIsFreeForm order rootSchema fuel isCategorizedKey seenRefs propSchema) := by
  intro result
  unfold propertyIsFreeForm
  split
  · exact Extends.refl result
  · split
    · exact Extends.refl result
    · split
      · exact Extends.refl result
      · split
        · exact reads_arrayReachesFreeForm (reads_itemSchemaReachesFreeFormString fuel seenRefs) _ result
        · exact Extends.refl result
  · exact Extends.refl result

theorem reads_compositionBranchReachesFreeForm (isCategorizedKey : Bool) (fuel : ℕ) (seenRefs : List String)
    (propSchema : Json) :
    Reads (compositionBranchReachesFreeForm order rootSchema isCategorizedKey fuel seenRefs propSchema) := by
  induction fuel generalizing seenRefs propSchema with
  | zero => cases propSchema with
    | obj members => exact extends_stop
    | _ => exact Extends.refl
  | succ fuel ih => cases propSchema with
    | obj members =>
      apply reads_anyCounted
      intro branch result
      have hfree : result.Extends (propertyIsFreeForm order rootSchema fuel isCategorizedKey
          (valueBranches order rootSchema seenRefs (.obj members)).1 branch result).2 :=
        reads_propertyIsFreeForm fuel isCategorizedKey _ branch result
      simp only
      split
      · next hread => exact hread ▸ hfree
      · next hread =>
        rw [hread] at hfree
        exact hfree.trans (ih _ branch _)
    | _ => exact Extends.refl

end

namespace Walk

variable {walk : Walk}

section

variable {walkSchema : List String → Json → SchemaWalkResult → SchemaWalkResult} {fuel : ℕ}
  {seenRefs : List String} (h : ∀ seenRefs node, Grows (walkSchema seenRefs node))

include h

theorem grows_walkSubschemaList (branches : Json) : Grows (walkSubschemaList walkSchema seenRefs branches) := by
  intro result
  unfold walkSubschemaList
  split
  · exact grows_eachCounted (h seenRefs) _ result
  · exact extends_markUnresolvable result

theorem grows_walkComposition (schema : Json) (key : String) :
    Grows fun result ↦ walkComposition walkSchema seenRefs schema result key := by
  intro result
  unfold walkComposition
  cases get schema key with
  | none => exact Extends.refl result
  | some branches => exact grows_walkSubschemaList h branches result

theorem grows_walkCompositions (schema : Json) : Grows (walkCompositions walkSchema seenRefs schema) := by
  intro result
  have hkey : ∀ key, Grows fun result ↦ walkComposition walkSchema seenRefs schema result key :=
    grows_walkComposition h schema
  exact (hkey "allOf" _).trans ((hkey "anyOf" _).trans ((hkey "oneOf" _).trans (hkey "prefixItems" _)))

theorem grows_walkItems (schema : Json) : Grows (walkItems walkSchema seenRefs schema) := by
  intro result
  unfold walkItems
  split
  · exact Extends.refl result
  · exact Extends.refl result
  · exact grows_walkSubschemaList h _ result
  · exact grows_eachCounted (h seenRefs) _ result
  · exact extends_markUnresolvable result

omit h in
theorem grows_recordFreeForm {reading : Reading} (hreading : Reads reading) (normKey : String) :
    Grows (recordFreeForm reading normKey) := by
  intro result
  have hread := hreading result
  unfold recordFreeForm
  split
  · next hanswer =>
    rw [hanswer] at hread
    exact hread.trans (extends_recordFreeFormKey _ _)
  · next hanswer =>
    rw [hanswer] at hread
    exact hread

omit h in
theorem grows_noteSelector (normKey : String) : Grows (noteSelector normKey) := by
  intro result
  unfold noteSelector
  split
  · exact { Extends.refl result with }
  · exact Extends.refl result

theorem grows_considerProperty (rawKey : String) (propSchema : Json) :
    Grows (walk.considerProperty walkSchema fuel seenRefs rawKey propSchema) := by
  intro result
  have hfree : Reads (propertyIsFreeForm walk.order walk.rootSchema fuel
      (decide (normalizeMcpIdentifier rawKey ∈ categorizedKeys)) seenRefs propSchema) :=
    reads_propertyIsFreeForm fuel _ seenRefs propSchema
  have hleaf := grows_recordFreeForm hfree (normalizeMcpIdentifier rawKey)
  apply (grows_noteSelector (normalizeMcpIdentifier rawKey) result).trans
  unfold considerProperty
  simp only
  split
  · apply (grows_markUnknownSchemaKeywords propSchema _).trans
    split
    · exact (grows_recordFreeForm (reads_compositionBranchReachesFreeForm _ (fuel + 1) seenRefs propSchema) _ _).trans
        (h _ _ _)
    · split
      · exact (h _ _ _).trans (hleaf _)
      · exact hleaf _
  · exact hleaf _

theorem grows_walkProperties (schema : Json) : Grows (walk.walkProperties walkSchema fuel seenRefs schema) := by
  intro result
  unfold walkProperties
  split
  · exact Extends.refl result
  · exact grows_eachCounted (fun property : String × Json ↦ grows_considerProperty h property.1 property.2) _ result
  · exact extends_markUnresolvable result

theorem grows_considerPattern (pattern : String × Json) :
    Grows (walk.considerPattern walkSchema fuel seenRefs pattern) := by
  intro result
  unfold considerPattern
  split
  · exact extends_markUnresolvable result
  · split
    · exact grows_considerProperty h _ _ result
    · exact Extends.refl result

theorem grows_walkPatternProperties (schema : Json) :
    Grows (walk.walkPatternProperties walkSchema fuel seenRefs schema) := by
  intro result
  unfold walkPatternProperties
  split
  · exact Extends.refl result
  · exact grows_eachCounted (grows_considerPattern h) _ result
  · exact extends_markUnresolvable result

theorem grows_walkAdditionalProperties (schema : Json) :
    Grows (walk.walkAdditionalProperties walkSchema fuel seenRefs schema) := by
  intro result
  unfold walkAdditionalProperties
  split
  · exact Extends.refl result
  · exact Extends.refl result
  · next additional _ _ =>
    have hwalked : result.Extends
        (if isMapping additional then eachCounted (walkSchema seenRefs) [additional] result else result) := by
      split
      · exact grows_eachCounted (h seenRefs) _ result
      · exact Extends.refl result
    have hfree : Reads (propertyIsFreeForm walk.order walk.rootSchema fuel true seenRefs additional) :=
      reads_propertyIsFreeForm fuel true seenRefs additional
    apply hwalked.trans
    by_cases hcorroborated : (walk.isStrongName || walk.isExecutorDescription) = true
    · simp only [if_pos hcorroborated]
      exact grows_recordFreeForm hfree _ _
    · simp only [if_neg hcorroborated]
      exact hfree _

theorem grows_walkSiblings (schema : Json) : Grows (walk.walkSiblings walkSchema fuel seenRefs schema) := by
  intro result
  apply (grows_walkCompositions h schema result).trans
  have hsingle := reads_eachWithin (h seenRefs) (singleBranches walk.order schema)
  unfold walkSiblings
  simp only
  split
  · next hread => exact hread ▸ hsingle _
  · next hread =>
    apply (hread ▸ hsingle _ : Extends _ _).trans
    apply (grows_walkItems h schema _).trans
    apply (grows_walkProperties h schema _).trans
    apply (grows_walkPatternProperties h schema _).trans
    exact (grows_walkAdditionalProperties h schema _).trans (grows_markUnknownSchemaKeywords schema _)

end

theorem grows_walkSchema (fuel : ℕ) (seenRefs : List String) (schema : Json) :
    Grows (walk.walkSchema fuel seenRefs schema) := by
  induction fuel generalizing seenRefs schema with
  | zero => exact extends_stop
  | succ fuel ih =>
    intro result
    have hcount := extends_consumeNodeBudget result
    unfold walkSchema
    split
    · next hconsume =>
      rw [hconsume] at hcount
      exact hcount
    · next hconsume =>
      rw [hconsume] at hcount
      apply hcount.trans
      simp only
      split
      · split
        · exact grows_walkSiblings ih schema _
        · split
          · exact extends_markUnresolvable _
          · exact (ih _ _ _).trans (grows_walkSiblings ih schema _)
      · exact Extends.refl _

end Walk

/-! ## Evidence that lasts -/

/-- What stays true of a result that grows, and is true where a cap stops the walk. -/
structure Lasting (Q : SchemaWalkResult → Prop) : Prop where
  extend : ∀ {result next : SchemaWalkResult}, result.Extends next → Q result → Q next
  stop : ∀ result : SchemaWalkResult, Q result.stop

/-- A step after which the evidence is there. -/
def Finds (Q : SchemaWalkResult → Prop) (step : SchemaWalkResult → SchemaWalkResult) : Prop :=
  ∀ result, Q (step result)

/-- A reading that answers yes, unless the evidence is there. -/
def Detects (Q : SchemaWalkResult → Prop) (reading : Reading) : Prop :=
  ∀ result, (reading result).1 = true ∨ Q (reading result).2

theorem Detects.recordFreeForm {Q : SchemaWalkResult → Prop} {reading : Reading} {normKey : String}
    (hrecord : ∀ result : SchemaWalkResult, Q (result.recordFreeFormKey normKey)) (h : Detects Q reading) :
    Finds Q (Walk.recordFreeForm reading normKey) := by
  intro result
  unfold Walk.recordFreeForm
  split
  · exact hrecord _
  · next hread =>
    rcases h result with hyes | hfound
    · rw [hread] at hyes
      cases hyes
    · rw [hread] at hfound
      exact hfound

namespace Lasting

variable {Q : SchemaWalkResult → Prop} (hQ : Lasting Q)

include hQ

theorem of_consume {result next : SchemaWalkResult} (h : result.consumeNodeBudget = (false, next)) : Q next := by
  unfold consumeNodeBudget at h
  split at h
  · cases h
    exact hQ.stop _
  · cases h

theorem detects_anyCounted {α : Type} {reading : α → Reading} (hreads : ∀ a, Reads (reading a)) {as : List α} {a : α}
    (ha : a ∈ as) (h : Detects Q (reading a)) : Detects Q (anyCounted reading as) := by
  induction as with
  | nil => exact absurd ha List.not_mem_nil
  | cons first as ih =>
    intro result
    unfold anyCounted
    split
    · next hconsume => exact .inr (hQ.of_consume hconsume)
    · next counted _ =>
      split
      · exact .inl rfl
      · next next hread =>
        rcases List.mem_cons.1 ha with rfl | hrest
        · rcases h counted with hyes | hfound
          · rw [hread] at hyes
            cases hyes
          · rw [hread] at hfound
            exact .inr (hQ.extend (reads_anyCounted hreads as next) hfound)
        · exact ih hrest next

theorem finds_eachWithin {α : Type} {step : α → SchemaWalkResult → SchemaWalkResult} (hgrows : ∀ a, Grows (step a))
    {as : List α} {a : α} (ha : a ∈ as) (h : Finds Q (step a)) : Finds Q fun result ↦ (eachWithin step as result).2 := by
  induction as with
  | nil => exact absurd ha List.not_mem_nil
  | cons first as ih =>
    intro result
    unfold eachWithin
    simp only
    split
    · next hconsume => exact hQ.of_consume hconsume
    · next counted _ =>
      rcases List.mem_cons.1 ha with rfl | hrest
      · exact hQ.extend (reads_eachWithin hgrows as _) (h counted)
      · exact ih hrest (step first counted)

theorem finds_eachCounted {α : Type} {step : α → SchemaWalkResult → SchemaWalkResult} (hgrows : ∀ a, Grows (step a))
    {as : List α} {a : α} (ha : a ∈ as) (h : Finds Q (step a)) : Finds Q (eachCounted step as) :=
  hQ.finds_eachWithin hgrows ha h

theorem of_eachWithin {α : Type} {step : α → SchemaWalkResult → SchemaWalkResult} {as : List α}
    {result next : SchemaWalkResult} (h : eachWithin step as result = (false, next)) : Q next := by
  induction as generalizing result with
  | nil => cases h
  | cons first as ih =>
    unfold eachWithin at h
    split at h
    · next hconsume =>
      cases h
      exact hQ.of_consume hconsume
    · exact ih h

section

variable {walk : Walk} {walkSchema : List String → Json → SchemaWalkResult → SchemaWalkResult} {fuel : ℕ}
  {seenRefs : List String} (hgrows : ∀ seenRefs node, Grows (walkSchema seenRefs node))

omit hQ in
/-- A property that is no container is recorded where it is free-form. -/
theorem finds_considerProperty_of_leaf {rawKey : String} {propSchema : Json}
    (hrecord : ∀ result : SchemaWalkResult, Q (result.recordFreeFormKey (normalizeMcpIdentifier rawKey)))
    (hleaf : ¬ (isMapping propSchema = true ∧ hasAnyKey objectContainerKeywords propSchema = true))
    (h : Detects Q (propertyIsFreeForm walk.order walk.rootSchema fuel
      (decide (normalizeMcpIdentifier rawKey ∈ categorizedKeys)) seenRefs propSchema)) :
    Finds Q (walk.considerProperty walkSchema fuel seenRefs rawKey propSchema) := by
  intro result
  have hfree := h.recordFreeForm hrecord
  unfold Walk.considerProperty
  simp only
  split
  · next hmapping =>
    rw [if_neg fun hcontainer ↦ hleaf ⟨hmapping, hcontainer⟩]
    split
    · exact hfree _
    · exact hfree _
  · exact hfree _

include hgrows

/-- A container is recorded where a branch is free-form. -/
theorem finds_considerProperty_of_composition {rawKey : String} {propSchema : Json}
    (hrecord : ∀ result : SchemaWalkResult, Q (result.recordFreeFormKey (normalizeMcpIdentifier rawKey)))
    (hmapping : isMapping propSchema = true) (hcontainer : hasAnyKey objectContainerKeywords propSchema = true)
    (h : Detects Q (compositionBranchReachesFreeForm walk.order walk.rootSchema
      (decide (normalizeMcpIdentifier rawKey ∈ categorizedKeys)) (fuel + 1) seenRefs propSchema)) :
    Finds Q (walk.considerProperty walkSchema fuel seenRefs rawKey propSchema) := by
  intro result
  have hfree := h.recordFreeForm hrecord
  unfold Walk.considerProperty
  simp only [if_pos hmapping, if_pos hcontainer]
  exact hQ.extend (hgrows _ _ _) (hfree _)

omit hgrows in
/-- A property that holds further schemas is walked. -/
theorem finds_considerProperty_of_walk {rawKey : String} {propSchema : Json} (hmapping : isMapping propSchema = true)
    (hkeys : hasAnyKey objectContainerKeywords propSchema = true ∨ hasAnyKey arrayItemKeywords propSchema = true)
    (h : Finds Q (walkSchema seenRefs propSchema)) :
    Finds Q (walk.considerProperty walkSchema fuel seenRefs rawKey propSchema) := by
  intro result
  unfold Walk.considerProperty
  simp only [if_pos hmapping]
  split
  · exact h _
  · next hcontainer =>
    rw [if_pos (hkeys.resolve_left hcontainer)]
    have hfree : Reads (propertyIsFreeForm walk.order walk.rootSchema fuel
        (decide (normalizeMcpIdentifier rawKey ∈ categorizedKeys)) seenRefs propSchema) :=
      reads_propertyIsFreeForm fuel _ seenRefs propSchema
    exact hQ.extend (Walk.grows_recordFreeForm hfree _ _) (h _)

theorem finds_walkCompositions {schema branch : Json} {branches : List Json} {key : String}
    (hkey : key ∈ listOfSubschemasKeywords) (hbranches : get schema key = some (.arr branches))
    (hbranch : branch ∈ branches) (h : Finds Q (walkSchema seenRefs branch)) :
    Finds Q (Walk.walkCompositions walkSchema seenRefs schema) := by
  have hcomposition : Finds Q fun result ↦ Walk.walkComposition walkSchema seenRefs schema result key := by
    intro result
    simp only [Walk.walkComposition, hbranches]
    exact hQ.finds_eachCounted (hgrows seenRefs) hbranch h result
  have hstep : ∀ key, Grows fun result ↦ Walk.walkComposition walkSchema seenRefs schema result key :=
    Walk.grows_walkComposition hgrows schema
  have hfold : ∀ keys : List String, key ∈ keys →
      Finds Q fun result ↦ keys.foldl (Walk.walkComposition walkSchema seenRefs schema) result := by
    intro keys
    induction keys with
    | nil => exact fun hmem ↦ absurd hmem List.not_mem_nil
    | cons first keys ih =>
      intro hmem result
      rcases List.mem_cons.1 hmem with rfl | hrest
      · have hrun : ∀ (keys : List String) (result : SchemaWalkResult),
            result.Extends (keys.foldl (Walk.walkComposition walkSchema seenRefs schema) result) := by
          intro keys
          induction keys with
          | nil => exact Extends.refl
          | cons first keys ih => exact fun result ↦ (hstep first result).trans (ih _)
        exact hQ.extend (hrun keys _) (hcomposition result)
      · exact ih hrest _
  exact hfold _ hkey

theorem finds_walkItems {schema : Json} {members : List (String × Json)}
    (hitems : get schema "items" = some (.obj members)) (h : Finds Q (walkSchema seenRefs (.obj members))) :
    Finds Q (Walk.walkItems walkSchema seenRefs schema) := by
  intro result
  simp only [Walk.walkItems, hitems]
  exact hQ.finds_eachCounted (hgrows seenRefs) (List.mem_singleton_self _) h result

theorem finds_walkProperties {schema propSchema : Json} {properties : List (String × Json)} {rawKey : String}
    (hproperties : get schema "properties" = some (.obj properties)) (hproperty : (rawKey, propSchema) ∈ properties)
    (h : Finds Q (walk.considerProperty walkSchema fuel seenRefs rawKey propSchema)) :
    Finds Q (walk.walkProperties walkSchema fuel seenRefs schema) := by
  intro result
  simp only [Walk.walkProperties, hproperties]
  exact hQ.finds_eachCounted (fun property : String × Json ↦ Walk.grows_considerProperty hgrows property.1 property.2)
    hproperty h result

theorem finds_walkPatternProperties {schema : Json} {patterns : List (String × Json)} {pattern : String × Json}
    (hpatterns : get schema "patternProperties" = some (.obj patterns)) (hpattern : pattern ∈ patterns)
    (h : Finds Q (walk.considerPattern walkSchema fuel seenRefs pattern)) :
    Finds Q (walk.walkPatternProperties walkSchema fuel seenRefs schema) := by
  intro result
  simp only [Walk.walkPatternProperties, hpatterns]
  exact hQ.finds_eachCounted (Walk.grows_considerPattern hgrows) hpattern h result

/-- Evidence of one of the keywords is evidence of the node. -/
theorem finds_walkSiblings {schema : Json}
    (h : Finds Q (Walk.walkCompositions walkSchema seenRefs schema) ∨
      Finds Q (Walk.walkItems walkSchema seenRefs schema) ∨
        Finds Q (walk.walkProperties walkSchema fuel seenRefs schema) ∨
          Finds Q (walk.walkPatternProperties walkSchema fuel seenRefs schema)) :
    Finds Q (walk.walkSiblings walkSchema fuel seenRefs schema) := by
  intro result
  unfold Walk.walkSiblings
  simp only
  split
  · next hread => exact hQ.of_eachWithin hread
  · next next hread =>
    have hsingle := reads_eachWithin (hgrows seenRefs) (singleBranches walk.order schema)
      (Walk.walkCompositions walkSchema seenRefs schema result)
    rw [hread] at hsingle
    have hunknown := grows_markUnknownSchemaKeywords schema
    have hadditional : Grows (walk.walkAdditionalProperties walkSchema fuel seenRefs schema) :=
      Walk.grows_walkAdditionalProperties hgrows schema
    have hpattern : Grows (walk.walkPatternProperties walkSchema fuel seenRefs schema) :=
      Walk.grows_walkPatternProperties hgrows schema
    have hproperties : Grows (walk.walkProperties walkSchema fuel seenRefs schema) :=
      Walk.grows_walkProperties hgrows schema
    have hitems : Grows (Walk.walkItems walkSchema seenRefs schema) := Walk.grows_walkItems hgrows schema
    have hlast := fun result ↦ (hadditional result).trans (hunknown _)
    have hthird := fun result ↦ (hpattern result).trans (hlast _)
    have hsecond := fun result ↦ (hproperties result).trans (hthird _)
    rcases h with hfound | hfound | hfound | hfound
    · exact hQ.extend (hsingle.trans ((hitems _).trans (hsecond _))) (hfound result)
    · exact hQ.extend (hsecond _) (hfound next)
    · exact hQ.extend (hthird _) (hfound _)
    · exact hQ.extend (hlast _) (hfound _)

end

variable {walk : Walk} {fuel : ℕ} {seenRefs : List String}

/-- Evidence of the keywords beside the reference of a node that can be followed. -/
theorem finds_walkSchema {schema : Json} (hmapping : isMapping schema = true)
    (hopen : ∀ ref, get schema "$ref" = some ref → (followRef walk.rootSchema seenRefs ref).isSome = true)
    (h : Finds Q (walk.walkSiblings (walk.walkSchema fuel) fuel seenRefs schema)) :
    Finds Q (walk.walkSchema (fuel + 1) seenRefs schema) := by
  intro result
  unfold Walk.walkSchema
  split
  · next hconsume => exact hQ.of_consume hconsume
  · simp only [if_pos hmapping]
    split
    · exact h _
    · next ref href =>
      obtain ⟨followed, hfollowed⟩ := Option.isSome_iff_exists.1 (hopen ref href)
      simp only [hfollowed]
      exact h _

/-- Evidence of what the reference of a node leads to. -/
theorem finds_walkSchema_of_ref {schema ref resolved : Json} {followed : String} (hmapping : isMapping schema = true)
    (href : get schema "$ref" = some ref) (hfollow : followRef walk.rootSchema seenRefs ref = some (followed, resolved))
    (h : Finds Q (walk.walkSchema fuel (followed :: seenRefs) resolved)) :
    Finds Q (walk.walkSchema (fuel + 1) seenRefs schema) := by
  intro result
  unfold Walk.walkSchema
  split
  · next hconsume => exact hQ.of_consume hconsume
  · simp only [if_pos hmapping, href, hfollow]
    exact hQ.extend (Walk.grows_walkSiblings (Walk.grows_walkSchema fuel) schema _) (h _)

end Lasting

end Lionagi.Service.Mcp
