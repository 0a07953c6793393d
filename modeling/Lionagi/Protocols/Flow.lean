import Lionagi.Protocols.Pile

/-!
# Flows

A flow holds a pile of items, a pile of named progressions over them, and an index from names to
progressions. The progressions are objects that callers may rename behind the flow's back; here the
owned object is the one stored in the pile, and a rename changes it in place.
-/

universe u v w

namespace Lionagi.Protocols

/-- A progression is observed by its identifier and compared by order and name. -/
instance (U : Type u) [DecidableEq U] : Observable (Progression U) U Unit where
  id p := p.id
  type _ := ()
  issubclass _ _ := true
  eq p q := p.order = q.order && p.name = q.name
  eq_refl p := by simp

/-- A reference to a progression: a name or the text of a UUID, a UUID, or an instance. -/
inductive ProgressionKey (U : Type u) where
  | str (key : String)
  | uuid (uid : U)
  | object (p : Progression U)

structure Flow (U : Type u) (α : Type v) (τ : Type w) where
  items : Pile U α τ
  progressions : Pile U (Progression U) Unit
  progressionNames : OrderedDict String U

namespace Flow

variable {U : Type u} {α : Type v} {τ : Type w} [Observable α U τ] [DecidableEq U] [DecidableEq τ]

/-- A name that is there and not the empty string. -/
def truthy (name : Option String) : Option String :=
  name.filter (· ≠ "")

/-- The progression object that the flow holds under an identifier. -/
def owned (f : Flow U α τ) (uid : U) : Option (Progression U) :=
  f.progressions.collections.get? uid

/-! ## Construction and serialization -/

def missingItems (items : Pile U α τ) (order : List U) : Bool :=
  order.any (· ∉ items.order)

/-- `_validate_referential_integrity` over the progressions in order. -/
def validateReferentialIntegrity (items : Pile U α τ) : List (Progression U) → Except PyError Unit
  | [] => .ok ()
  | prog :: rest =>
    if missingItems items prog.order then .error .itemNotFoundError
    else validateReferentialIntegrity items rest

/-- `_index_progression_names` -/
def indexProgressionNames : List (Progression U) → OrderedDict String U →
    Except PyError (OrderedDict String U)
  | [], names => .ok names
  | prog :: rest, names =>
    match truthy prog.name with
    | none => indexProgressionNames rest names
    | some name =>
      if name ∈ names then .error .itemExistsError
      else indexProgressionNames rest (names.set name prog.id)

/-- The checks of a constructed flow, which `from_dict` repeats. -/
def new (items : Pile U α τ) (progressions : Pile U (Progression U) Unit) :
    Except PyError (Flow U α τ) :=
  match progressions.values with
  | .error e => .error e
  | .ok progs =>
    match validateReferentialIntegrity items progs with
    | .error e => .error e
    | .ok () =>
      match indexProgressionNames progs OrderedDict.empty with
      | .error e => .error e
      | .ok progressionNames => .ok { items, progressions, progressionNames }

structure Dict (U : Type u) (α : Type v) where
  items : Pile.Dict U α
  progressions : Pile.Dict U (Progression U)

def toDict (f : Flow U α τ) : Dict U α :=
  { items := f.items.toDict, progressions := f.progressions.toDict }

/-- `from_dict`; the two restored piles draw the identifiers of their own progressions. -/
def fromDict (data : Dict U α) (itemsId progressionsId : U) : Except PyError (Flow U α τ) :=
  match Pile.fromDict data.items itemsId, Pile.fromDict data.progressions progressionsId with
  | .ok items, .ok progressions => new items progressions
  | .error e, _ => .error e
  | .ok _, .error e => .error e

/-! ## Progressions -/

/-- The live scan for a progression whose current name is the key. -/
def scan (collections : OrderedDict U (Progression U)) (key : String) :
    List U → Except PyError (Option (Progression U))
  | [] => .ok none
  | uid :: rest =>
    match collections.get? uid with
    | none => .error .keyError
    | some prog => if prog.name = some key then .ok (some prog) else scan collections key rest

variable [ParseUuid U]

/-- The lookup behind a missing or stale index entry. -/
def repairLookup (f : Flow U α τ) (key : String) : Flow U α τ × Except PyError (Progression U) :=
  match scan f.progressions.collections key f.progressions.order with
  | .error e => (f, .error e)
  | .ok (some prog) =>
    ({ f with progressionNames := f.progressionNames.set key prog.id }, .ok prog)
  | .ok none =>
    match (ParseUuid.parse key).bind f.owned with
    | none => (f, .error .itemNotFoundError)
    | some prog => (f, .ok prog)

def getProgression (f : Flow U α τ) (key : ProgressionKey U) :
    Flow U α τ × Except PyError (Progression U) :=
  match key with
  | .str key =>
    match f.progressionNames.get? key with
    | none => f.repairLookup key
    | some uid =>
      match f.owned uid with
      | none => repairLookup { f with progressionNames := f.progressionNames.erase key } key
      | some prog =>
        if prog.name = some key then (f, .ok prog)
        else repairLookup { f with progressionNames := f.progressionNames.erase key } key
  | .uuid uid =>
    match f.owned uid with
    | none => (f, .error .itemNotFoundError)
    | some prog => (f, .ok prog)
  | .object p =>
    match f.owned p.id with
    | none => (f, .error .itemNotFoundError)
    | some prog => (f, .ok prog)

def addProgression (f : Flow U α τ) (progression : Progression U) :
    Flow U α τ × Except PyError Unit :=
  if (truthy progression.name).any (· ∈ f.progressionNames) then (f, .error .itemExistsError)
  else if missingItems f.items progression.order then (f, .error .itemNotFoundError)
  else
    match f.progressions.includeItem (.item progression) with
    | (progressions, .error e) => ({ f with progressions }, .error e)
    | (progressions, .ok ()) =>
      match truthy progression.name with
      | none => ({ f with progressions }, .ok ())
      | some name =>
        ({ f with progressions, progressionNames := f.progressionNames.set name progression.id },
          .ok ())

/-- `_purge_name_index` -/
def purgeNameIndex (f : Flow U α τ) (uid : U) : Flow U α τ :=
  { f with progressionNames := f.progressionNames.filter fun _ pid ↦ pid ≠ uid }

/-- Drop an owned progression with its index entries. -/
def dropProgression (f : Flow U α τ) (uid : U) : Flow U α τ × Except PyError Unit :=
  let (progressions, popped) := f.progressions.popRef (.uuid uid) false
  ({ f.purgeNameIndex uid with progressions }, popped.map fun _ ↦ ())

def removeProgression (f : Flow U α τ) (key : ProgressionKey U) : Flow U α τ × Except PyError Unit :=
  match key with
  | .str key =>
    match f.getProgression (.str key) with
    | (f', .error e) => (f', .error e)
    | (f', .ok prog) => f'.dropProgression prog.id
  | .uuid uid =>
    match f.owned uid with
    | none => (f, .error .itemNotFoundError)
    | some _ => f.dropProgression uid
  | .object p =>
    match f.owned p.id with
    | none => (f, .error .itemNotFoundError)
    | some _ => f.dropProgression p.id

/-! ## Items -/

/-- Change an owned progression object in place. -/
def modifyProgression (f : Flow U α τ) (uid : U) (change : Progression U → Progression U) :
    Flow U α τ :=
  { f with progressions :=
    { f.progressions with collections := f.progressions.collections.modify uid change } }

def resolveEach (f : Flow U α τ) : List (ProgressionKey U) → Flow U α τ × Except PyError (List U)
  | [] => (f, .ok [])
  | p :: rest =>
    match f.getProgression p with
    | (f', .error e) => (f', .error e)
    | (f', .ok prog) =>
      match f'.resolveEach rest with
      | (f'', .error e) => (f'', .error e)
      | (f'', .ok uids) => (f'', .ok (prog.id :: uids))

/-- Append the item to each resolved progression object. -/
def appendEach (f : Flow U α τ) (item : Ref U α) : List U → Flow U α τ × Except PyError Unit
  | [] => (f, .ok ())
  | uid :: rest =>
    match item.validateOrder with
    | .error e => (f, .error e)
    | .ok refs =>
      (f.modifyProgression uid fun prog ↦ { prog with order := prog.order ++ refs }).appendEach
        item rest

def addItem (f : Flow U α τ) (item : Ref U α) (progressions : List (ProgressionKey U)) :
    Flow U α τ × Except PyError Unit :=
  match f.resolveEach progressions with
  | (f', .error e) => (f', .error e)
  | (f', .ok resolved) =>
    match f'.items.includeItem item with
    | (items, .error e) => ({ f' with items }, .error e)
    | (items, .ok ()) => appendEach { f' with items } item resolved

/-- `if uid in progression: progression.exclude(uid)` -/
def excludeFrom (uid : U) (prog : Progression U) : Progression U :=
  if Progression.contains prog.order (.uuid uid : Ref U α) then
    { prog with order := (Progression.exclude prog.order (.uuid uid : Ref U α)).1 }
  else prog

def excludeEach (f : Flow U α τ) (uid : U) : List U → Flow U α τ × Except PyError Unit
  | [] => (f, .ok ())
  | pid :: rest =>
    match f.owned pid with
    | none => (f, .error .keyError)
    | some _ => (f.modifyProgression pid (excludeFrom (α := α) uid)).excludeEach uid rest

def removeItem (f : Flow U α τ) (itemId : Ref U α) : Flow U α τ × Except PyError Unit :=
  match itemId.getId with
  | .error e => (f, .error e)
  | .ok uid =>
    match f.excludeEach uid f.progressions.order with
    | (f', .error e) => (f', .error e)
    | (f', .ok ()) =>
      let (items, popped) := f'.items.popRef (.uuid uid) false
      ({ f' with items }, popped.map fun _ ↦ ())

def clear (f : Flow U α τ) : Flow U α τ :=
  { items := f.items.clear.1, progressions := f.progressions.clear.1,
    progressionNames := OrderedDict.empty }

end Flow

/-! ## Calls -/

/-- A call on a flow, or the assignment `progression.name = name` to the object that the flow holds
under `uid`, if it holds one. -/
inductive FlowCall (U : Type u) (α : Type v) where
  | addProgression (progression : Progression U)
  | removeProgression (key : ProgressionKey U)
  | getProgression (key : ProgressionKey U)
  | addItem (item : Ref U α) (progressions : List (ProgressionKey U))
  | removeItem (itemId : Ref U α)
  | clear
  | setName (uid : U) (name : Option String)

namespace Flow

variable {U : Type u} {α : Type v} {τ : Type w} [Observable α U τ] [DecidableEq U] [DecidableEq τ]
  [ParseUuid U]

/-- The flow a call leaves behind, whether it returns or raises. -/
def exec (f : Flow U α τ) : FlowCall U α → Flow U α τ
  | .addProgression progression => (f.addProgression progression).1
  | .removeProgression key => (f.removeProgression key).1
  | .getProgression key => (f.getProgression key).1
  | .addItem item progressions => (f.addItem item progressions).1
  | .removeItem itemId => (f.removeItem itemId).1
  | .clear => f.clear
  | .setName uid name => f.modifyProgression uid fun prog ↦ { prog with name }

end Flow

end Lionagi.Protocols
