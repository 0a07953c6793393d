import Lionagi.Library.OrderedDict
import Lionagi.Library.PySplit
import Mathlib.Algebra.Order.BigOperators.Group.List
import Mathlib.Algebra.Order.Ring.Nat

/-!
# Nested values

Dicts and lists, nested to any depth, are flattened to one dict whose keys are the paths of the leaves, and a flat dict
is read back into nested ones. Lists are read where the keys of a dict are the numerals below their number.
-/

namespace Lionagi.Libs

/-- A scalar, a list, or a dict as its items in order. -/
inductive Nested (K S : Type) where
  | scalar (s : S)
  | list (items : List (Nested K S))
  | dict (members : List (K × Nested K S))

namespace Nested

variable {K S : Type}

mutual

/-- The number of values that are part of the value. -/
def weight : Nested K S → ℕ
  | .scalar _ => 1
  | .list items => weightItems items + 1
  | .dict members => weightMembers members + 1

def weightItems : List (Nested K S) → ℕ
  | [] => 0
  | item :: items => weight item + weightItems items

def weightMembers : List (K × Nested K S) → ℕ
  | [] => 0
  | (_, value) :: members => weight value + weightMembers members

end

/-- `str(i)` -/
abbrev numeral (i : ℕ) : Text := Nat.toDigits 10 i

/-- `isinstance(v, (Mapping, Sequence)) and not isinstance(v, (str, bytes, bytearray))` -/
def isContainer : Nested K S → Bool
  | .scalar _ => false
  | _ => true

/-- `obj.items()`, or the items of a list under their numerals. -/
def children : Nested Text S → List (Text × Nested Text S)
  | .scalar _ => []
  | .list items => items.zipIdx.map fun item ↦ (numeral item.2, item.1)
  | .dict members => members

/-! ## Flattening -/

/-- A queue of containers with their paths and depths. -/
abbrev FlattenQueue (S : Type) : Type := List (Nested Text S × List Text × ℕ)

abbrev Flat (S : Type) : Type := OrderedDict Text (Nested Text S)

section Flatten

variable (sep : Text)

/-- A container waits its turn, anything else is a leaf. -/
def flattenChild (parentKey : List Text) (depth : ℕ) (state : FlattenQueue S × Flat S)
    (child : Text × Nested Text S) : FlattenQueue S × Flat S :=
  let newKey := parentKey ++ [child.1]
  if child.2.isContainer then (state.1 ++ [(child.2, newKey, depth + 1)], state.2)
  else (state.1, state.2.set (Text.join sep newKey) child.2)

/-- The turn of a value of the queue. -/
def flattenTurn (maxDepth : Option ℕ) (obj : Nested Text S) (parentKey : List Text) (depth : ℕ)
    (queue : FlattenQueue S) (result : Flat S) : FlattenQueue S × Flat S :=
  if maxDepth.any (· ≤ depth) then (queue, result.set (Text.join sep parentKey) obj)
  else if obj.isContainer then obj.children.foldl (flattenChild sep parentKey depth) (queue, result)
  else (queue, result.set (Text.join sep parentKey) obj)

/-- The loop, with a bound on its turns. -/
def flattenLoop (maxDepth : Option ℕ) : ℕ → FlattenQueue S → Flat S → Flat S
  | 0, _, result => result
  | _, [], result => result
  | turns + 1, (obj, parentKey, depth) :: queue, result =>
    let state := flattenTurn sep maxDepth obj parentKey depth queue result
    flattenLoop maxDepth turns state.1 state.2

/-- `flatten(data, sep=sep, max_depth=maxDepth)` -/
def flatten (data : Nested Text S) (maxDepth : Option ℕ) : Flat S :=
  flattenLoop sep maxDepth data.weight [(data, [], 0)] .empty

end Flatten

/-! ## Reading back -/

/-- A scalar or a list is used like a dict. -/
inductive NestedError where
  | typeError
  deriving DecidableEq

/-- `current = current.setdefault(part, {})` over the parts but the last, and `current[last] = value`. -/
def assign : List (Text × Nested Text S) → List Text → Nested Text S →
    Except NestedError (List (Text × Nested Text S))
  | current, [], _ => .ok current
  | current, [part], value => .ok (OrderedDict.setEntries part value current)
  | current, part :: parts, value => do
    match OrderedDict.lookup part current with
    | none => return OrderedDict.setEntries part (.dict (← assign [] parts value)) current
    | some (.dict inner) => return OrderedDict.setEntries part (.dict (← assign inner parts value)) current
    | some _ => .error .typeError

section Unflatten

variable (py : CharTable)

def isDigitKey (key : Text) : Bool := !key.isEmpty && key.all py.isdigit

/-- The keys of the dict are the numerals below their number. -/
def readsAsList (members : List (Text × Nested Text S)) : Bool :=
  !members.isEmpty && members.all (fun member ↦ isDigitKey py member.1) &&
    (List.range members.length).all fun i ↦ (OrderedDict.lookup (numeral i) members).isSome

mutual

/-- `_convert`, on the dicts of the tree. A dict that is read as a list has all its numerals. -/
def convert : Nested Text S → Nested Text S
  | .dict members =>
    if readsAsList py members then
      .list ((List.range members.length).map fun i ↦
        (OrderedDict.lookup (numeral i) (convertMembers members)).getD (.dict []))
    else .dict (convertMembers members)
  | value => value

def convertMembers : List (Text × Nested Text S) → List (Text × Nested Text S)
  | [] => []
  | (key, value) :: members => (key, convert value) :: convertMembers members

end

/-- The tree of the flat dict. -/
def intermediate (sep : Text) (data : Flat S) : Except NestedError (List (Text × Nested Text S)) :=
  data.entries.foldlM (fun tree entry ↦ assign tree (Text.split sep entry.1) entry.2) []

/-- `unflatten(data, sep)` -/
def unflatten (sep : Text) (data : Flat S) : Except NestedError (Nested Text S) :=
  (intermediate sep data).map fun tree ↦ convert py (.dict tree)

end Unflatten

end Nested

end Lionagi.Libs
