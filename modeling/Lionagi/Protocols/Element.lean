import Mathlib.Data.List.Basic

/-!
# Elements and references to them

What the containers of `lionagi.protocols.generic` know about the objects they hold: an identity, a
class and an equality. References arrive in many shapes (an item, a UUID, a string, nested lists)
and are flattened by `validate_order` into a list of identifiers.
-/

universe u v w

namespace Lionagi.Protocols

/-- The exception classes raised by the containers. -/
inductive PyError where
  | typeError
  | valueError
  | keyError
  | indexError
  | validationError
  | itemNotFoundError
  | itemExistsError
  | relationError
deriving DecidableEq, Repr

/-- A sequence of statements returns when the first returns and the rest returns after it. -/
theorem bind_eq_ok {α β : Type u} {x : Except PyError α} {f : α → Except PyError β} {b : β} :
    (x >>= f) = .ok b ↔ ∃ a, x = .ok a ∧ f a = .ok b := by
  cases x with
  | error e => exact ⟨fun h ↦ (by cases h), fun ⟨a, h, _⟩ ↦ (by cases h)⟩
  | ok a => exact ⟨fun h ↦ ⟨a, rfl, h⟩, fun ⟨a', h, hf⟩ ↦ (by cases h; exact hf)⟩

/-- `if not condition: raise e` -/
def ensure (condition : Bool) (e : PyError) : Except PyError PUnit.{u + 1} :=
  if condition then .ok ⟨⟩ else .error e

theorem ensure_eq_ok {condition : Bool} {e : PyError} {x : PUnit.{u + 1}} :
    ensure condition e = .ok x ↔ condition = true := by
  cases condition
  · exact ⟨fun h ↦ (by cases h), fun h ↦ (by cases h)⟩
  · exact ⟨fun _ ↦ rfl, fun _ ↦ rfl⟩

/-- Objects a container can hold: `α` is the type of the objects, `U` of their identifiers and `τ`
of their classes. Equality is the comparison of a list membership test, which an object passes with
itself. -/
class Observable (α : Type v) (U : outParam (Type u)) (τ : outParam (Type w)) where
  id : α → U
  type : α → τ
  issubclass : τ → τ → Bool
  eq : α → α → Bool
  eq_refl : ∀ a, eq a a = true

/-- An observable that is nothing but an identity. -/
structure Bare (U : Type u) where
  id : U
deriving DecidableEq

instance (U : Type u) [DecidableEq U] : Observable (Bare U) U Unit where
  id a := a.id
  type _ := ()
  issubclass _ _ := true
  eq a b := a = b
  eq_refl _ := decide_eq_true rfl

/-- `UUID(text)`, where the text is one. -/
class ParseUuid (U : Type u) where
  parse : String → Option U

/-- Where numbers stand for identifiers, no text is one. -/
instance : ParseUuid Nat := ⟨fun _ ↦ none⟩

/-- A value passed where items or references to items are expected. A string carries the UUID it
parses to, if it parses; any other object is known only by its truth value. -/
inductive Ref (U : Type u) (α : Type v) where
  | none
  | item (a : α)
  | uuid (u : U)
  | str (parsed : Option U)
  | list (xs : List (Ref U α))
  | tuple (xs : List (Ref U α))
  | other (truthy : Bool)

variable {U : Type u} {α : Type v} {τ : Type w} [Observable α U τ]

namespace Ref

/-- Python truth value. An observable counts as true here: every use asks `not value and not
isinstance(value, Observable)`. -/
def falsy : Ref U α → Bool
  | none => true
  | item _ => false
  | uuid _ => false
  | str _ => false
  | list xs => xs.isEmpty
  | tuple xs => xs.isEmpty
  | other truthy => !truthy

/-- `to_list_type` -/
def toListType : Ref U α → List (Ref U α)
  | none => []
  | uuid u => [uuid u]
  | str (some u) => [uuid u]
  | str Option.none => []
  | item a => [item a]
  | list xs => xs
  | tuple xs => xs
  | other truthy => [other truthy]

/-- `ID.get_id` -/
def getId : Ref U α → Except PyError U
  | uuid u => .ok u
  | item a => .ok (Observable.id a)
  | str (some u) => .ok u
  | _ => .error .valueError

mutual

/-- `validate_order`: the identifiers of a reference, nested lists and tuples in depth-first
order. -/
def validateOrder : Ref U α → Except PyError (List U)
  | none => .ok []
  | item a => .ok [Observable.id a]
  | uuid u => .ok [u]
  | str (some u) => .ok [u]
  | str Option.none => .error .valueError
  | list xs => validateOrders xs
  | tuple xs => validateOrders xs
  | other _ => .error .valueError

def validateOrders : List (Ref U α) → Except PyError (List U)
  | [] => .ok []
  | x :: xs =>
    match validateOrder x with
    | .error e => .error e
    | .ok here =>
      match validateOrders xs with
      | .error e => .error e
      | .ok rest => .ok (here ++ rest)

end

mutual

/-- `to_list(_, flatten=True, dropna=True)` on one entry: lists are flattened, tuples are not. -/
def toListFlat : Ref U α → List (Ref U α)
  | none => []
  | list xs => toListFlats xs
  | item a => [item a]
  | uuid u => [uuid u]
  | str parsed => [str parsed]
  | tuple xs => [tuple xs]
  | other truthy => [other truthy]

def toListFlats : List (Ref U α) → List (Ref U α)
  | [] => []
  | x :: xs => toListFlat x ++ toListFlats xs

end

/-! ## The loop behind `validate_order` -/

theorem validateOrders_cons (x : Ref U α) (xs : List (Ref U α)) :
    validateOrders (x :: xs) =
      (validateOrder x).bind fun here ↦ (validateOrders xs).map fun rest ↦ here ++ rest := by
  rw [validateOrders]
  cases validateOrder x with
  | error e => rfl
  | ok here => cases validateOrders xs <;> rfl

/-! ## Flattening lists of plain references -/

@[simp] theorem validateOrder_list (xs : List (Ref U α)) :
    validateOrder (list xs) = validateOrders xs := rfl

@[simp] theorem validateOrder_uuid (u : U) : validateOrder (uuid u : Ref U α) = .ok [u] := rfl

@[simp] theorem validateOrder_item (a : α) :
    validateOrder (item a : Ref U α) = .ok [Observable.id a] := rfl

theorem validateOrders_map_uuid (us : List U) :
    validateOrders (us.map fun u ↦ (uuid u : Ref U α)) = .ok us := by
  induction us with
  | nil => rfl
  | cons u us ih => rw [List.map_cons, validateOrders_cons, ih]; rfl

theorem validateOrders_map_item (items : List α) :
    validateOrders (items.map fun a ↦ (item a : Ref U α)) = .ok (items.map Observable.id) := by
  induction items with
  | nil => rfl
  | cons a items ih => rw [List.map_cons, validateOrders_cons, ih]; rfl

end Ref

end Lionagi.Protocols
