import Lionagi.Library.OrderedDict
import Lionagi.Protocols.Progression

/-!
# Piles

An ordered collection stores its items in a dictionary and their order in a progression. Every
mutator is a function from the pile to the pile it leaves behind and its result, so that a call that
raises half way still shows what it did before raising.
-/

universe u v w

namespace Lionagi.Protocols

open PySequence

/-- A subscript: an index, a slice, or references to items. -/
inductive Key (U : Type u) (α : Type v) where
  | int (index : Int)
  | slice (s : Slice)
  | ref (r : Ref U α)

namespace Ref

variable {U : Type u} {α : Type v}

def ofIds (ids : List U) : Ref U α := list (ids.map uuid)

def ofItems (items : List α) : Ref U α := list (items.map item)

end Ref

structure Pile (U : Type u) (α : Type v) (τ : Type w) where
  collections : OrderedDict U α
  itemType : Option (List τ)
  progression : Progression U
  strictType : Bool

/-- What `pop` returns; several items popped by a slice come back as a new pile. -/
inductive Popped (U : Type u) (α : Type v) where
  | one (a : α)
  | many (items : List α)
  | pile (collections : OrderedDict U α)
  | default

namespace Pile

variable {U : Type u} {α : Type v} {τ : Type w} [Observable α U τ] [DecidableEq U] [DecidableEq τ]

def order (p : Pile U α τ) : List U := p.progression.order

def withOrder (p : Pile U α τ) (order : List U) : Pile U α τ :=
  { p with progression := { p.progression with order } }

/-! ## Admission -/

/-- One entry of `_validate_collections`: with item types given an item of one of them passes,
otherwise any observable does. -/
def admitItem (itemType : Option (List τ)) (strictType : Bool) (i : Ref U α) : Except PyError α :=
  match itemType, i with
  | none, .item a => .ok a
  | some [], .item a => .ok a
  | some types, .item a =>
    if strictType then
      if Observable.type a ∈ types then .ok a else .error .validationError
    else
      if types.any fun t ↦ Observable.issubclass α (Observable.type a) t then .ok a
      else .error .validationError
  | none, _ => .error .valueError
  | some [], _ => .error .valueError
  | some _, _ => .error .validationError

def admitAll (itemType : Option (List τ)) (strictType : Bool) :
    List (Ref U α) → OrderedDict U α → Except PyError (OrderedDict U α)
  | [], result => .ok result
  | i :: rest, result =>
    match admitItem itemType strictType i with
    | .error e => .error e
    | .ok a => admitAll itemType strictType rest (result.set (Observable.id a) a)

/-- `_validate_collections` -/
def validateCollections (value : Ref U α) (itemType : Option (List τ)) (strictType : Bool) :
    Except PyError (OrderedDict U α) :=
  if value.falsy then .ok OrderedDict.empty
  else admitAll itemType strictType value.toListType OrderedDict.empty

/-- The checks of `_validate_progression` on a given order. -/
def checkOrder (ids : List U) (collections : OrderedDict U α) : Except PyError (List U) :=
  if ids.dedup.length ≠ ids.length then .error .valueError
  else if ids.dedup.length ≠ collections.keys.length then .error .valueError
  else if ids.all (· ∈ collections) then .ok ids
  else .error .valueError

/-- `_validate_progression` for an order given as identifiers. -/
def validateProgression (order : Option (List U)) (collections : OrderedDict U α) :
    Except PyError (List U) :=
  match order with
  | none => .ok collections.keys
  | some [] => .ok collections.keys
  | some ids => checkOrder ids collections

/-- The constructor. The progression it builds gets the fresh identifier `progressionId`. -/
def new (collections : Ref U α) (itemType : Option (List τ)) (order : Option (List U))
    (strictType : Bool) (progressionId : U) : Except PyError (Pile U α τ) :=
  match validateCollections collections itemType strictType with
  | .error e => .error e
  | .ok collections =>
    match validateProgression order collections with
    | .error e => .error e
    | .ok order =>
      .ok { collections, itemType, strictType,
            progression := { id := progressionId, order, name := none } }

/-- What `to_dict` keeps of a pile. The item types are not serialized, and an item is restored from
its own dictionary. -/
structure Dict (U : Type u) (α : Type v) where
  collections : List α
  order : List U
  strictType : Bool

def toDict (p : Pile U α τ) : Dict U α :=
  { collections := p.collections.values, order := p.order, strictType := p.strictType }

def fromDict (data : Dict U α) (progressionId : U) : Except PyError (Pile U α τ) :=
  match validateCollections (.ofItems data.collections) (none : Option (List τ)) data.strictType with
  | .error e => .error e
  | .ok collections =>
    match checkOrder data.order collections with
    | .error e => .error e
    | .ok order =>
      .ok { collections, itemType := none, strictType := data.strictType,
            progression := { id := progressionId, order, name := none } }

/-! ## Reading -/

/-- `item in pile` -/
def contains (p : Pile U α τ) (item : Ref U α) : Bool :=
  Progression.contains p.order item

def lookupAll (collections : OrderedDict U α) : List U → Except PyError (List α)
  | [] => .ok []
  | key :: keys =>
    match collections.get? key with
    | none => .error .keyError
    | some a =>
      match lookupAll collections keys with
      | .error e => .error e
      | .ok rest => .ok (a :: rest)

/-- The items in order; iterating a pile reads the same entries. -/
def values (p : Pile U α τ) : Except PyError (List α) :=
  lookupAll p.collections p.order

/-- `len(pile)` -/
def len (p : Pile U α τ) : Nat := p.collections.keys.length

/-! ## Mutators -/

def includeItem (p : Pile U α τ) (item : Ref U α) : Pile U α τ × Except PyError Unit :=
  match validateCollections item p.itemType p.strictType with
  | .error e => (p, .error e)
  | .ok itemDict =>
    let order := (Progression.includeItem p.order (.ofIds itemDict.keys : Ref U α)).1
    ({ p.withOrder order with collections := p.collections.update itemDict }, .ok ())

/-- `[collections.pop(k) for k in keys]`: the pops before the failing one have happened. -/
def popEach (collections : OrderedDict U α) :
    List U → OrderedDict U α × Except PyError (List α)
  | [] => (collections, .ok [])
  | key :: keys =>
    match collections.get? key with
    | none => (collections, .error .keyError)
    | some a =>
      match popEach (collections.erase key) keys with
      | (collections', .error e) => (collections', .error e)
      | (collections', .ok rest) => (collections', .ok (a :: rest))

def orDefault (hasDefault : Bool) : Except PyError (Popped U α) :=
  if hasDefault then .ok .default else .error .itemNotFoundError

/-- The common tail of the branches of `_pop`: the progression already has its new order when the
entries are popped, and any exception becomes the default or `ItemNotFoundError`. -/
def popKeys (p : Pile U α τ) (order : List U) (keys : List U)
    (wrap : List α → Except PyError (Popped U α)) (hasDefault : Bool) :
    Pile U α τ × Except PyError (Popped U α) :=
  match popEach p.collections keys with
  | (collections, .error _) => ({ p.withOrder order with collections }, orDefault hasDefault)
  | (collections, .ok result) =>
    match wrap result with
    | .error _ => ({ p.withOrder order with collections }, orDefault hasDefault)
    | .ok popped => ({ p.withOrder order with collections }, .ok popped)

def wrapPopped : List α → Except PyError (Popped U α)
  | [] => .error .itemNotFoundError
  | [a] => .ok (.one a)
  | items => .ok (.many items)

/-- Several items popped by a slice go through the constructor of a new pile. -/
def wrapSlice (p : Pile U α τ) : List α → Except PyError (Popped U α)
  | [] => .error .indexError
  | [a] => .ok (.one a)
  | items =>
    match validateCollections (.ofItems items) p.itemType p.strictType with
    | .error e => .error e
    | .ok collections => .ok (.pile collections)

/-- `_pop` by references -/
def popRef (p : Pile U α τ) (key : Ref U α) (hasDefault : Bool) :
    Pile U α τ × Except PyError (Popped U α) :=
  match key.validateOrder with
  | .error _ => (p, orDefault hasDefault)
  | .ok keys =>
    popKeys p (Progression.exclude p.order (.ofIds keys : Ref U α)).1 keys wrapPopped hasDefault

/-- `_pop`. A slice of the progression is itself a progression, with the fresh identifier `sliceId`,
and what `exclude` removes is that identifier. -/
def pop (p : Pile U α τ) (key : Key U α) (hasDefault : Bool) (sliceId : U) :
    Pile U α τ × Except PyError (Popped U α) :=
  match key with
  | .int index =>
    match Progression.getItem p.order index with
    | .error _ => (p, orDefault hasDefault)
    | .ok uid =>
      popKeys p (Progression.exclude p.order (.ofIds [uid] : Ref U α)).1 [uid] wrapPopped hasDefault
  | .slice s =>
    match Progression.getSlice p.order s with
    | .error _ => (p, orDefault hasDefault)
    | .ok pops =>
      popKeys p (Progression.exclude p.order (.uuid sliceId : Ref U α)).1 pops p.wrapSlice hasDefault
  | .ref r => p.popRef r hasDefault

def remove (p : Pile U α τ) (item : Key U α) : Pile U α τ × Except PyError Unit :=
  match item with
  | .int _ => (p, .error .typeError)
  | .slice _ => (p, .error .typeError)
  | .ref r =>
    if p.contains r then
      ((p.popRef r false).1, (p.popRef r false).2.map fun _ ↦ ())
    else (p, .error .itemNotFoundError)

def exclude (p : Pile U α τ) (item : Ref U α) : Pile U α τ × Except PyError Unit :=
  match item.toListType.filter p.contains with
  | [] => (p, .ok ())
  | excludeList =>
    ((p.popRef (.list excludeList) false).1, (p.popRef (.list excludeList) false).2.map fun _ ↦ ())

def updateEach (p : Pile U α τ) : List (U × α) → Pile U α τ × Except PyError Unit
  | [] => (p, .ok ())
  | (i, other) :: rest =>
    if i ∈ p.collections then
      updateEach { p with collections := p.collections.set i other } rest
    else
      match p.includeItem (.item other) with
      | (p', .error e) => (p', .error e)
      | (p', .ok ()) => updateEach p' rest

def update (p : Pile U α τ) (other : Ref U α) : Pile U α τ × Except PyError Unit :=
  match validateCollections other p.itemType p.strictType with
  | .error e => (p, .error e)
  | .ok others => p.updateEach others.entries

def append (p : Pile U α τ) (item : Ref U α) : Pile U α τ × Except PyError Unit :=
  p.update item

/-- `_clear` -/
def clear (p : Pile U α τ) : Pile U α τ × Except PyError Unit :=
  ({ p.withOrder [] with collections := OrderedDict.empty }, .ok ())

/-- `_insert` -/
def insert (p : Pile U α τ) (index : Int) (item : Ref U α) : Pile U α τ × Except PyError Unit :=
  match validateCollections item p.itemType p.strictType with
  | .error e => (p, .error e)
  | .ok itemDict =>
    if itemDict.keys.any (· ∈ p.order) then (p, .error .itemExistsError)
    else
      match Progression.insert p.order index (.ofIds itemDict.keys : Ref U α) with
      | (order, .error e) => (p.withOrder order, .error e)
      | (order, .ok ()) =>
        ({ p.withOrder order with collections := p.collections.update itemDict }, .ok ())

/-- The common tail of `_setitem` at an index or a slice. -/
def replaceAt (p : Pile U α τ) (deleteOrder : Except PyError (List U))
    (assigned : List U × Except PyError Unit) (itemDict : OrderedDict U α) :
    Pile U α τ × Except PyError Unit :=
  match deleteOrder, assigned with
  | .error _, _ => (p, .error .valueError)
  | .ok _, (order, .error _) => (p.withOrder order, .error .valueError)
  | .ok keys, (order, .ok ()) =>
    match popEach p.collections keys with
    | (collections, .error _) => ({ p.withOrder order with collections }, .error .valueError)
    | (collections, .ok _) =>
      ({ p.withOrder order with collections := collections.update itemDict }, .ok ())

/-- Every key of a keyed assignment must be the identifier of one of the items. -/
def checkKeys (itemOrder : List U) : List (Ref U α) → Except PyError Unit
  | [] => .ok ()
  | k :: rest =>
    match k.getId with
    | .error e => .error e
    | .ok uid => if uid ∈ itemOrder then checkKeys itemOrder rest else .error .keyError

/-- The keys of an assignment by references; a list whose first entry is a list is flattened. -/
def assignKeys (key : Ref U α) : List (Ref U α) :=
  match key.toListType with
  | .list xs :: rest => Ref.toListFlats (.list xs :: rest)
  | keys => keys

/-- `_setitem` -/
def setitem (p : Pile U α τ) (key : Key U α) (item : Ref U α) : Pile U α τ × Except PyError Unit :=
  match validateCollections item p.itemType p.strictType with
  | .error e => (p, .error e)
  | .ok itemDict =>
    let itemOrder : Ref U α := .ofIds itemDict.keys
    if itemDict.keys.any (· ∈ p.order) then (p, .error .itemExistsError)
    else
      match key with
      | .int index =>
        replaceAt p ((Progression.getItem p.order index).map fun uid ↦ [uid])
          (Progression.setItem p.order index itemOrder) itemDict
      | .slice s =>
        replaceAt p (Progression.getSlice p.order s) (Progression.setSlice p.order s itemOrder)
          itemDict
      | .ref r =>
        if r.toListType = [] then (p, .error .indexError)
        else if (assignKeys r).length ≠ itemDict.keys.length then (p, .error .keyError)
        else
          match checkKeys itemDict.keys (assignKeys r) with
          | .error e => (p, .error e)
          | .ok () =>
            match Progression.append p.order (.list (assignKeys r)) with
            | (order, .error e) => (p.withOrder order, .error e)
            | (order, .ok ()) =>
              ({ p.withOrder order with collections := p.collections.update itemDict }, .ok ())

/-! ## Set operators; anything but a pile on the right is a `TypeError` -/

/-- `__ior__` -/
def ior (p : Pile U α τ) (other : Option (Pile U α τ)) : Pile U α τ × Except PyError Unit :=
  match other with
  | none => (p, .error .typeError)
  | some other =>
    match other.values with
    | .error e => (p, .error e)
    | .ok items =>
      match validateCollections (.ofItems items) p.itemType p.strictType with
      | .error e => (p, .error e)
      | .ok otherDict => p.includeItem (.ofItems otherDict.values)

/-- `__ixor__` -/
def ixor (p : Pile U α τ) (other : Option (Pile U α τ)) : Pile U α τ × Except PyError Unit :=
  match other with
  | none => (p, .error .typeError)
  | some other =>
    match other.values with
    | .error e => (p, .error e)
    | .ok items =>
      let toExclude := items.filter fun i ↦ p.contains (.item i)
      let rest := items.filter fun i ↦ !toExclude.any fun x ↦ Observable.eq x i
      match p.exclude (.ofItems toExclude) with
      | (p', .error e) => (p', .error e)
      | (p', .ok ()) => p'.includeItem (.ofItems rest)

/-- `__iand__` -/
def iand (p : Pile U α τ) (other : Option (Pile U α τ)) : Pile U α τ × Except PyError Unit :=
  match other with
  | none => (p, .error .typeError)
  | some other =>
    match p.values with
    | .error e => (p, .error e)
    | .ok items => p.exclude (.ofItems (items.filter fun i ↦ !other.contains (.item i)))

/-- `__or__` -/
protected def or (p : Pile U α τ) (other : Option (Pile U α τ)) (progressionId : U) :
    Except PyError (Pile U α τ) :=
  match other with
  | none => .error .typeError
  | some other =>
    match p.values with
    | .error e => .error e
    | .ok values =>
      match new (.ofItems values) p.itemType (some p.order) p.strictType progressionId with
      | .error e => .error e
      | .ok result =>
        match other.values with
        | .error e => .error e
        | .ok items =>
          match result.includeItem (.ofItems items) with
          | (_, .error e) => .error e
          | (result, .ok ()) => .ok result

/-- `__xor__` -/
protected def xor (p : Pile U α τ) (other : Option (Pile U α τ)) (progressionId : U) :
    Except PyError (Pile U α τ) :=
  match other with
  | none => .error .typeError
  | some other =>
    match other.values with
    | .error e => .error e
    | .ok items =>
      let toExclude := items.filter fun i ↦ p.contains (.item i)
      match p.values with
      | .error e => .error e
      | .ok own =>
        let values := (own.filter fun i ↦ !toExclude.any fun x ↦ Observable.eq x i) ++
          items.filter fun i ↦ !toExclude.any fun x ↦ Observable.eq x i
        new (.ofItems values) p.itemType none p.strictType progressionId

/-- `__and__` -/
protected def and (p : Pile U α τ) (other : Option (Pile U α τ)) (progressionId : U) :
    Except PyError (Pile U α τ) :=
  match other with
  | none => .error .typeError
  | some other =>
    match p.values with
    | .error e => .error e
    | .ok items =>
      new (.ofItems (items.filter fun i ↦ other.contains (.item i))) p.itemType none p.strictType
        progressionId

end Pile

/-! ## Calls -/

/-- A call of a mutator with its arguments. A pop says whether a default was given and which
identifier a slice would draw. -/
inductive PileCall (U : Type u) (α : Type v) (τ : Type w) where
  | includeItem (item : Ref U α)
  | exclude (item : Ref U α)
  | pop (key : Key U α) (hasDefault : Bool) (sliceId : U)
  | remove (item : Key U α)
  | update (other : Ref U α)
  | append (item : Ref U α)
  | insert (index : Int) (item : Ref U α)
  | setitem (key : Key U α) (item : Ref U α)
  | clear
  | ior (other : Option (Pile U α τ))
  | ixor (other : Option (Pile U α τ))
  | iand (other : Option (Pile U α τ))

namespace Pile

variable {U : Type u} {α : Type v} {τ : Type w} [Observable α U τ] [DecidableEq U] [DecidableEq τ]

def call (p : Pile U α τ) : PileCall U α τ → Pile U α τ × Except PyError Unit
  | .includeItem item => p.includeItem item
  | .exclude item => p.exclude item
  | .pop key hasDefault sliceId =>
    ((p.pop key hasDefault sliceId).1, (p.pop key hasDefault sliceId).2.map fun _ ↦ ())
  | .remove item => p.remove item
  | .update other => p.update other
  | .append item => p.append item
  | .insert index item => p.insert index item
  | .setitem key item => p.setitem key item
  | .clear => p.clear
  | .ior other => p.ior other
  | .ixor other => p.ixor other
  | .iand other => p.iand other

/-- The pile a call leaves behind, whether it returns or raises. -/
def exec (p : Pile U α τ) (c : PileCall U α τ) : Pile U α τ := (p.call c).1

end Pile

end Lionagi.Protocols
