import Lionagi.Lndl.FunctionCall
import Lionagi.Lndl.Parser

/-!
# Assembly of a spec's value

The aliases that an `OUT{` block lists for a spec are resolved in order and put together by the type of the spec. For
a list of models they fill one item after another: an item is finished when a name comes up that it has, or when a
value without a name finds no field left.
-/

namespace Lionagi.Lndl

/-! ## Types -/

/-- What the assembler looks at in a type; `other` is any type that it does not take apart. -/
inductive Annotation where
  | noneType
  | other (name : Text)
  | union (args : List Annotation)
  | list (args : List Annotation)
  | dict (args : List Annotation)
  | model (name : Text) (fields : List (Text × Annotation))

namespace Annotation

def isNoneType : Annotation → Bool
  | .noneType => true
  | _ => false

def isModelCls : Annotation → Bool
  | .model _ _ => true
  | _ => false

/-- `_unwrap_optional` -/
def unwrapOptional (t : Annotation) : Annotation :=
  match t with
  | .union args =>
    match args.filter fun arg ↦ !arg.isNoneType with
    | [] => t
    | arg :: rest => ((arg :: rest).find? isModelCls).getD arg
  | _ => t

/-- `_target_model_name` -/
def targetModelName (target : Annotation) : Option Text :=
  let inner : Annotation := match target.unwrapOptional with
    | .list [] => .other "Any".toList
    | .list (arg :: _) => arg.unwrapOptional
    | t => t
  match inner with
  | .model name _ => some name
  | _ => none

end Annotation

/-! ## Resolution -/

structure ActionCall where
  name : Text
  function : Text
  arguments : OrderedDict Text PyValue
  rawCall : Text

inductive AssembleError where
  | missingLvar (aliasName : Text)
  | invalidConstructor (aliasName call : Text)
  | typeMismatch (aliasName declared expected : Text)
  deriving DecidableEq, Repr

/-- The values that are assembled, of which some are strings. -/
structure Values (V : Type) where
  ofText : Text → V
  ofCall : ActionCall → V
  ofList : List V → V
  text? : V → Option Text
  /-- `_coerce_str_to_list` -/
  strToList : Text → List V

section Resolve

variable (py : Python) {V : Type} (values : Values V) {Num : Type}

def isNoteRef (ref : Text) : Bool := "note.".toList.isPrefixOf ref && decide (5 < ref.length)

def noteKey (ref : Text) : Text := ref.drop 5

def buildActionCall (aliasName : Text) (node : Lact) : Except AssembleError ActionCall :=
  match parseFunctionCall py node.call with
  | .ok parsed => .ok ⟨aliasName, qualifiedName parsed, parsed.arguments, node.call⟩
  | .error _ => .error (.invalidConstructor aliasName node.call)

/-- What the references of a program are resolved in. -/
structure Scope (V : Type) where
  lvarsByAlias : OrderedDict Text Lvar
  lactsByAlias : OrderedDict Text Lact
  actionResults : OrderedDict Text V
  scratchpad : OrderedDict Text V

/-- `_alias_value`; `none` is a note that is not there. -/
def aliasValue (scope : Scope V) (aliasName : Text) : Except AssembleError (Option V) :=
  if isNoteRef aliasName then .ok (scope.scratchpad.get? (noteKey aliasName))
  else
    match scope.lactsByAlias.get? aliasName with
    | some node =>
      match scope.actionResults.get? aliasName with
      | some result => .ok (some result)
      | none => (buildActionCall py aliasName node).map fun call ↦ some (values.ofCall call)
    | none =>
      match scope.lvarsByAlias.get? aliasName with
      | some (.lvar _ _ _ content) => .ok (some (values.ofText content))
      | some (.rlvar _ content _) => .ok (some (values.ofText content))
      | none =>
        match scope.actionResults.get? aliasName with
        | some result => .ok (some result)
        | none => .error (.missingLvar aliasName)

/-- The model that the node of an alias declares. -/
def declaredModel (scope : Scope V) (aliasName : Text) : Option Text :=
  match scope.lactsByAlias.get? aliasName with
  | some node => node.model
  | none =>
    match scope.lvarsByAlias.get? aliasName with
    | some (.lvar model _ _ _) => some model
    | _ => none

/-- `_alias_field` of the node of an alias. -/
def aliasField (scope : Scope V) (aliasName : Text) : Option Text :=
  match scope.lactsByAlias.get? aliasName with
  | some node => node.field
  | none =>
    match scope.lvarsByAlias.get? aliasName with
    | some (.lvar _ field _ _) => some field
    | _ => none

/-- The resolved references, each with the field that its alias encodes; what is no string is skipped. -/
def resolveRefs (scope : Scope V) (expectedModel : Option Text) :
    List (OutValue Num) → Except AssembleError (List (Option Text × V))
  | [] => .ok []
  | .str aliasName :: refs => do
    match ← aliasValue py values scope aliasName with
    | none => resolveRefs scope expectedModel refs
    | some value =>
      match expectedModel, declaredModel scope aliasName with
      | some expected, some declared =>
        if expected ≠ [] ∧ declared ≠ [] ∧ declared ≠ expected then
          .error (.typeMismatch aliasName declared expected)
        else .ok ((aliasField scope aliasName, value) :: (← resolveRefs scope expectedModel refs))
      | _, _ => .ok ((aliasField scope aliasName, value) :: (← resolveRefs scope expectedModel refs))
  | _ :: refs => resolveRefs scope expectedModel refs

end Resolve

/-! ## Assembly -/

section Assemble

variable (py : Python) {V : Type} (values : Values V) {Num : Type}

/-- `_coerce_field_value` -/
def coerceFieldValue (value : V) (fieldType : Annotation) : V :=
  match fieldType.unwrapOptional, values.text? value with
  | .list [], some text => values.ofList (values.strToList text)
  | .list (arg :: _), some text => if arg.isModelCls then value else values.ofList (values.strToList text)
  | _, _ => value

/-- `_coerce_model_dict`: the keys stay, and their order. -/
def coerceModelDict (fields : List (Text × Annotation)) (d : OrderedDict Text V) : OrderedDict Text V where
  entries := d.entries.map fun entry ↦ (entry.1, match fields.find? fun field ↦ field.1 = entry.1 with
    | some field => coerceFieldValue values entry.2 field.2
    | none => entry.2)
  nodup_keys := by
    rw [List.map_map]
    exact d.nodup_keys

/-- The first declared field that an item has not. -/
def nextUnset (orderedFields : List Text) (d : OrderedDict Text V) : Option Text := orderedFields.find? (· ∉ d)

/-- The loop over the parts, with the finished items and the current one. -/
def groupParts (fields : List (Text × Annotation)) : List (OrderedDict Text V) → OrderedDict Text V →
    List (Option Text × V) → List (OrderedDict Text V)
  | items, current, [] => if current.entries = [] then items else items ++ [coerceModelDict values fields current]
  | items, current, (none, value) :: parts =>
    match nextUnset (fields.map Prod.fst) current with
    | some field => groupParts fields items (current.set field value) parts
    | none =>
      let items := items ++ [coerceModelDict values fields current]
      match nextUnset (fields.map Prod.fst) (.empty : OrderedDict Text V) with
      | some field => groupParts fields items (OrderedDict.empty.set field value) parts
      | none => groupParts fields items .empty parts
  | items, current, (some field, value) :: parts =>
    if field ∈ current then
      groupParts fields (items ++ [coerceModelDict values fields current]) (OrderedDict.empty.set field value) parts
    else groupParts fields items (current.set field value) parts

/-- The fields of one model: a value with a name replaces what is there. -/
def fillModel (orderedFields : List Text) : OrderedDict Text V → List (Option Text × V) → OrderedDict Text V
  | d, [] => d
  | d, (none, value) :: parts =>
    match nextUnset orderedFields d with
    | some field => fillModel orderedFields (d.set field value) parts
    | none => fillModel orderedFields d parts
  | d, (some field, value) :: parts => fillModel orderedFields (d.set field value) parts

inductive Assembled (V : Type) where
  | none
  | models (items : List (OrderedDict Text V))
  | list (items : List V)
  | dict (d : OrderedDict Text V)
  | value (value : V)

def assembleParts (parts : List (Option Text × V)) (targetType : Annotation) : Assembled V :=
  match parts with
  | [] => .none
  | first :: rest =>
    match targetType.unwrapOptional with
    | .list (.model _ fields :: _) => .models (groupParts values fields [] .empty (first :: rest))
    | .list _ =>
      match rest, values.text? first.2 with
      | [], some text => .list (values.strToList text)
      | _, _ => .list ((first :: rest).map Prod.snd)
    | .dict _ => .dict (.ofList ((first :: rest).filterMap fun part ↦ part.1.map (·, part.2)))
    | .model _ fields =>
      .dict (coerceModelDict values fields (fillModel (fields.map Prod.fst) .empty (first :: rest)))
    | _ =>
      match rest with
      | [] => .value first.2
      | _ => .list ((first :: rest).map Prod.snd)

def assembleSpecValue (scope : Scope V) (refs : List (OutValue Num)) (targetType : Annotation) :
    Except AssembleError (Assembled V) :=
  (resolveRefs py values scope targetType.targetModelName refs).map fun parts ↦
    assembleParts values parts targetType

end Assemble

/-! ## Items of a list -/

/-- An item stores one part after another: a part with a name under the name, a part without one under the first
declared field that is not there yet. -/
inductive Filled {V : Type} (orderedFields : List Text) : List (Option Text × V) → List (Text × V) → Prop
  | empty : Filled orderedFields [] []
  | named {parts : List (Option Text × V)} {entries : List (Text × V)} {field : Text} {value : V} :
      Filled orderedFields parts entries → field ∉ entries.map Prod.fst →
      Filled orderedFields (parts ++ [(some field, value)]) (entries ++ [(field, value)])
  | raw {parts : List (Option Text × V)} {entries : List (Text × V)} {field : Text} {value : V} :
      Filled orderedFields parts entries → orderedFields.find? (· ∉ entries.map Prod.fst) = some field →
      Filled orderedFields (parts ++ [(none, value)]) (entries ++ [(field, value)])

/-- Items that store the parts, each a stretch of them. -/
def Groups {V : Type} (orderedFields : List Text) (parts : List (Option Text × V)) (items : List (OrderedDict Text V)) :
    Prop :=
  ∃ stretches, stretches.flatten = parts ∧
    List.Forall₂ (fun stretch item ↦ Filled orderedFields stretch item.entries ∧ item.entries ≠ []) stretches items

section Groups

variable {V : Type} {orderedFields : List Text} {parts : List (Option Text × V)}

theorem Filled.map_snd {entries : List (Text × V)} (h : Filled orderedFields parts entries) :
    entries.map Prod.snd = parts.map Prod.snd := by
  induction h with
  | empty => rfl
  | named _ _ ih => rw [List.map_append, List.map_append, ih, List.map_singleton, List.map_singleton]
  | raw _ _ ih => rw [List.map_append, List.map_append, ih, List.map_singleton, List.map_singleton]

variable {items : List (OrderedDict Text V)}

/-- The values of the items, one item after another, are those of the parts. -/
theorem Groups.flatMap_values (h : Groups orderedFields parts items) :
    items.flatMap OrderedDict.values = parts.map Prod.snd := by
  obtain ⟨stretches, rfl, hitems⟩ := h
  induction hitems with
  | nil => rfl
  | cons hitem _ ih =>
    rw [List.flatMap_cons, ih, OrderedDict.values, hitem.1.map_snd, List.flatten_cons, List.map_append]

theorem Groups.ne_nil (h : Groups orderedFields parts items) : ∀ item ∈ items, item.entries ≠ [] := by
  obtain ⟨stretches, -, hitems⟩ := h
  induction hitems with
  | nil => exact fun item hitem ↦ absurd hitem List.not_mem_nil
  | cons hitem _ ih => exact List.forall_mem_cons.2 ⟨hitem.2, ih⟩

variable {stretch : List (Option Text × V)} {current : OrderedDict Text V}

/-- A finished item. -/
theorem Groups.finish (h : Groups orderedFields parts items) (hcurrent : Filled orderedFields stretch current.entries)
    (hne : current.entries ≠ []) : Groups orderedFields (parts ++ stretch) (items ++ [current]) := by
  obtain ⟨stretches, rfl, hitems⟩ := h
  refine ⟨stretches ++ [stretch], by simp, ?_⟩
  exact List.rel_append hitems (.cons ⟨hcurrent, hne⟩ .nil)

theorem Filled.set_named (h : Filled orderedFields stretch current.entries) {field : Text} (hnew : field ∉ current)
    (value : V) : Filled orderedFields (stretch ++ [(some field, value)]) (current.set field value).entries := by
  have hset : (current.set field value).entries = current.entries ++ [(field, value)] :=
    OrderedDict.setEntries_of_notMem hnew value
  rw [hset]
  exact h.named hnew

theorem Filled.set_raw (h : Filled orderedFields stretch current.entries) {field : Text}
    (hfield : nextUnset orderedFields current = some field) (value : V) :
    Filled orderedFields (stretch ++ [(none, value)]) (current.set field value).entries := by
  have hnew : field ∉ current := by
    unfold nextUnset at hfield
    simpa using List.find?_some hfield
  have hset : (current.set field value).entries = current.entries ++ [(field, value)] :=
    OrderedDict.setEntries_of_notMem hnew value
  have hfirst : orderedFields.find? (· ∉ current.entries.map Prod.fst) = some field := by
    rw [← hfield, nextUnset]
    congr 1
    funext name
    exact decide_eq_decide.2 Iff.rfl
  rw [hset]
  exact h.raw hfirst

end Groups

section ListOfModels

variable {V : Type} (values : Values V) {fields : List (Text × Annotation)}

/-- Without a field that is a list nothing is coerced. -/
theorem coerceModelDict_eq (hscalar : ∀ field ∈ fields, ∀ args, field.2.unwrapOptional ≠ .list args)
    (d : OrderedDict Text V) : coerceModelDict values fields d = d := by
  apply OrderedDict.ext
  have hentry : ∀ entry ∈ d.entries, (entry.1, match fields.find? fun field ↦ field.1 = entry.1 with
      | some field => coerceFieldValue values entry.2 field.2
      | none => entry.2) = entry := by
    intro entry _
    split
    · next field hfind =>
      have hlist := hscalar field (List.mem_of_find?_eq_some hfind)
      unfold coerceFieldValue
      split
      · next text htype _ => exact absurd htype (hlist [])
      · next arg rest text htype _ => exact absurd htype (hlist (arg :: rest))
      · rfl
    · rfl
  exact (List.map_congr_left hentry).trans (List.map_id _)

variable {orderedFields : List Text}

/-- An empty item has its first field to fill. -/
theorem exists_nextUnset_empty (hfields : orderedFields ≠ []) :
    ∃ field, nextUnset orderedFields (.empty : OrderedDict Text V) = some field := by
  obtain ⟨first, rest, rfl⟩ := List.exists_cons_of_ne_nil hfields
  exact ⟨first, List.find?_cons_of_pos (by simp)⟩

theorem Filled.eq_nil {stretch : List (Option Text × V)} (h : Filled orderedFields stretch []) : stretch = [] :=
  List.map_eq_nil_iff.1 h.map_snd.symm

/-- The loop keeps the finished items and the current one the items of the parts so far. -/
theorem groups_groupParts (hfields : fields ≠ [])
    (hscalar : ∀ field ∈ fields, ∀ args, field.2.unwrapOptional ≠ .list args)
    {before stretch parts : List (Option Text × V)} {items : List (OrderedDict Text V)} {current : OrderedDict Text V}
    (hitems : Groups (fields.map Prod.fst) before items)
    (hcurrent : Filled (fields.map Prod.fst) stretch current.entries) :
    Groups (fields.map Prod.fst) (before ++ stretch ++ parts) (groupParts values fields items current parts) := by
  have hnames : fields.map Prod.fst ≠ [] := fun hnil ↦ hfields (List.map_eq_nil_iff.1 hnil)
  have hempty : Filled (fields.map Prod.fst) [] (.empty : OrderedDict Text V).entries := .empty
  -- one part is taken into the current item, or into a new one behind the finished current one
  have hstep (before stretch parts : List (Option Text × V)) (part : Option Text × V) :
      before ++ stretch ++ part :: parts = before ++ (stretch ++ [part]) ++ parts ∧
        before ++ stretch ++ part :: parts = (before ++ stretch) ++ ([] ++ [part]) ++ parts := by
    simp
  induction parts generalizing before stretch items current with
  | nil =>
    rw [groupParts, List.append_nil]
    split
    · next hnil =>
      rw [hnil] at hcurrent
      rw [hcurrent.eq_nil, List.append_nil]
      exact hitems
    · next hne =>
      rw [coerceModelDict_eq values hscalar]
      exact hitems.finish hcurrent hne
  | cons part parts ih =>
    obtain ⟨field, value⟩ := part
    cases field with
    | none =>
      rw [groupParts]
      cases hnext : nextUnset (fields.map Prod.fst) current with
      | some field =>
        rw [(hstep before stretch parts (none, value)).1]
        exact ih hitems (hcurrent.set_raw hnext value)
      | none =>
        obtain ⟨first, hfirst⟩ := exists_nextUnset_empty (V := V) hnames
        have hne : current.entries ≠ [] := by
          intro hnil
          have hempty : current = .empty := OrderedDict.ext hnil
          rw [hempty, hfirst] at hnext
          cases hnext
        rw [hfirst, coerceModelDict_eq values hscalar, (hstep before stretch parts (none, value)).2]
        exact ih (hitems.finish hcurrent hne) (hempty.set_raw hfirst value)
    | some field =>
      rw [groupParts]
      split
      · next hmem =>
        have hne : current.entries ≠ [] := by
          intro hnil
          have hempty : current = .empty := OrderedDict.ext hnil
          rw [hempty] at hmem
          exact OrderedDict.not_mem_empty field hmem
        rw [coerceModelDict_eq values hscalar, (hstep before stretch parts (some field, value)).2]
        exact ih (hitems.finish hcurrent hne) (hempty.set_named (OrderedDict.not_mem_empty field) value)
      · next hnew =>
        rw [(hstep before stretch parts (some field, value)).1]
        exact ih hitems (hcurrent.set_named hnew value)

end ListOfModels

/-! ## The value of a list of models -/

section Spec

variable (py : Python) {V : Type} (values : Values V) {Num : Type}

/-- References to a list of models: none give no value, and others items that store their values in order. -/
theorem assembleSpecValue_list {scope : Scope V} {refs : List (OutValue Num)} {name : Text}
    {fields : List (Text × Annotation)} (hfields : fields ≠ [])
    (hscalar : ∀ field ∈ fields, ∀ args, field.2.unwrapOptional ≠ .list args) {parts : List (Option Text × V)}
    (hparts : resolveRefs py values scope (some name) refs = .ok parts) :
    (parts = [] → assembleSpecValue py values scope refs (.list [.model name fields]) = .ok .none) ∧
    (parts ≠ [] → ∃ items,
      assembleSpecValue py values scope refs (.list [.model name fields]) = .ok (.models items) ∧
      items.flatMap OrderedDict.values = parts.map Prod.snd ∧ (∀ item ∈ items, item.entries ≠ []) ∧
      ∃ stretches, stretches.flatten = parts ∧
        List.Forall₂ (fun stretch item ↦ Filled (fields.map Prod.fst) stretch item.entries) stretches items) := by
  have hresult : assembleSpecValue py values scope refs (.list [.model name fields]) =
      .ok (assembleParts values parts (.list [.model name fields])) := by
    rw [assembleSpecValue]
    change (resolveRefs py values scope (some name) refs).map _ = _
    rw [hparts]
    rfl
  rw [hresult]
  refine ⟨fun hnil ↦ by rw [hnil]; rfl, fun hne ↦ ?_⟩
  obtain ⟨first, rest, rfl⟩ := List.exists_cons_of_ne_nil hne
  have hgroups : Groups (fields.map Prod.fst) ([] ++ [] ++ first :: rest)
      (groupParts values fields [] .empty (first :: rest)) :=
    groups_groupParts values hfields hscalar ⟨[], rfl, .nil⟩ .empty
  obtain ⟨stretches, hflatten, hitems⟩ := id hgroups
  exact ⟨_, rfl, hgroups.flatMap_values, hgroups.ne_nil, stretches, hflatten, hitems.imp fun _ _ hitem ↦ hitem.1⟩

end Spec

section Notes

open Call (logPython)

def texts : Values Text := ⟨id, fun call ↦ call.rawCall, List.flatten, some, fun text ↦ [text]⟩

def noteFields : List (Text × Annotation) :=
  [("title".toList, .other "str".toList), ("body".toList, .union [.other "str".toList, .noneType])]

def noteScope : Scope Text where
  lvarsByAlias := .ofList [("a".toList, .rlvar "a".toList "first".toList none),
    ("b".toList, .lvar "Note".toList "title".toList "b".toList "second".toList),
    ("c".toList, .lvar "Note".toList "tag".toList "c".toList "third".toList)]
  lactsByAlias := .empty
  actionResults := .empty
  scratchpad := .empty

def noteRefs : List (OutValue ℕ) := [.str "a".toList, .num 3, .str "b".toList, .str "c".toList]

theorem noteFields_scalar : ∀ field ∈ noteFields, ∀ args, field.2.unwrapOptional ≠ .list args := by
  simp [noteFields, Annotation.unwrapOptional, Annotation.isNoneType, Annotation.isModelCls]

theorem assembleSpecValue_list_notes : ∃ items,
    assembleSpecValue logPython texts noteScope noteRefs (.list [.model "Note".toList noteFields]) =
      .ok (.models items) ∧
    items.flatMap OrderedDict.values = ["first".toList, "second".toList, "third".toList] ∧
    (∀ item ∈ items, item.entries ≠ []) ∧ ∃ stretches, stretches.flatten =
      [(none, "first".toList), (some "title".toList, "second".toList), (some "tag".toList, "third".toList)] ∧
      List.Forall₂ (fun stretch item ↦ Filled (noteFields.map Prod.fst) stretch item.entries) stretches items :=
  have hparts : resolveRefs logPython texts noteScope (some "Note".toList) noteRefs =
      .ok [(none, "first".toList), (some "title".toList, "second".toList), (some "tag".toList, "third".toList)] := by
    rfl
  (assembleSpecValue_list logPython texts (List.cons_ne_nil _ _) noteFields_scalar hparts).2 (List.cons_ne_nil _ _)

/-- Without references there are no items but no value. -/
theorem not_assembleSpecValue_models : ¬ ∀ (py : Python) (values : Values Text) (scope : Scope Text)
    (refs : List (OutValue ℕ)) (name : Text) (fields : List (Text × Annotation)), fields ≠ [] →
    (∀ field ∈ fields, ∀ args, field.2.unwrapOptional ≠ .list args) → ∀ parts,
    resolveRefs py values scope (some name) refs = .ok parts →
    ∃ items, assembleSpecValue py values scope refs (.list [.model name fields]) = .ok (.models items) := by
  intro h
  obtain ⟨items, hitems⟩ :=
    h logPython texts noteScope [] "Note".toList noteFields (List.cons_ne_nil _ _) noteFields_scalar [] rfl
  cases hitems

end Notes

end Lionagi.Lndl
