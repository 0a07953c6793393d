import Mathlib.Data.List.Basic

/-!
# Conversion of values to dictionaries

The Python values that operations return, and `to_dict(value, recursive=True)`, through which every
dependent reads them. What becomes of an object of a user's class is decided by the object's own
methods, so such a value carries the outcome.
-/

namespace Lionagi.Ln

inductive DictKey where
  | str (s : String)
  | int (n : Int)
deriving DecidableEq, Repr

inductive Value where
  | none
  | bool (b : Bool)
  | int (n : Int)
  | float (text : String)
  | str (s : String)
  | list (items : List Value)
  | tuple (items : List Value)
  | dict (entries : List (DictKey × Value))
  | object (className : String) (converted : Except String Value)

/-- `json.loads`, where it returns. -/
class JsonLoads where
  loads : String → Option Value

/-- Where no text is JSON. -/
@[reducible] def JsonLoads.never : JsonLoads := ⟨fun _ ↦ none⟩

namespace Value

/-- `type(value).__name__` -/
def typeName : Value → String
  | none => "NoneType"
  | bool _ => "bool"
  | int _ => "int"
  | float _ => "float"
  | str _ => "str"
  | list _ => "list"
  | tuple _ => "tuple"
  | dict _ => "dict"
  | object className _ => className

/-- `value is None` -/
def isNone : Value → Bool
  | none => true
  | _ => false

def lookup (entries : List (DictKey × Value)) (key : DictKey) : Option Value :=
  (entries.find? fun entry ↦ entry.1 = key).map Prod.snd

/-- `original[key] = value` -/
def setEntry (key : DictKey) (value : Value) : List (DictKey × Value) → List (DictKey × Value)
  | [] => [(key, value)]
  | (key', value') :: rest =>
    if key' = key then (key, value) :: rest else (key', value') :: setEntry key value rest

/-- `_preprocess_recursive` with the levels that are left; objects of other classes stay. -/
def preprocess [JsonLoads] : ℕ → Value → Value
  | 0, v => v
  | depth + 1, str s =>
    match JsonLoads.loads s with
    | .none => str s
    | some parsed => preprocess depth parsed
  | depth + 1, dict entries => dict (entries.map fun entry ↦ (entry.1, preprocess depth entry.2))
  | depth + 1, list items => list (items.map (preprocess depth))
  | depth + 1, tuple items => tuple (items.map (preprocess depth))
  | _ + 1, v => v

/-- `_enumerate_iterable` -/
def enumerate (items : List Value) : Value :=
  dict (items.zipIdx.map fun item ↦ (.int item.2, item.1))

/-- The levels that `to_dict` descends by default. -/
def maxRecursiveDepth : ℕ := 5

/-- `to_dict(value, recursive=True)` for a value that is not a scalar. -/
def toDict [JsonLoads] (v : Value) : Except String Value :=
  match preprocess maxRecursiveDepth v with
  | dict entries => .ok (dict entries)
  | list items => .ok (enumerate items)
  | tuple items => .ok (enumerate items)
  | object _ converted => converted
  | none => .ok (dict [])
  | v => .error s!"cannot convert {v.typeName} to dict"

/-- How the executor reads a result: `None`, strings, numbers and booleans as they are, anything else
through `to_dict`. -/
def plain [JsonLoads] (v : Value) : Except String Value :=
  match v with
  | none => .ok none
  | bool b => .ok (bool b)
  | int n => .ok (int n)
  | float text => .ok (float text)
  | str s => .ok (str s)
  | v => v.toDict

/-! ## Merging dictionaries -/

mutual

/-- `deep_update` -/
def deepUpdate (original : List (DictKey × Value)) :
    List (DictKey × Value) → List (DictKey × Value)
  | [] => original
  | (key, value) :: rest =>
    deepUpdate (setEntry key (merged value (lookup original key)) original) rest

/-- What is stored for a value of the update: two dictionaries are merged. -/
def merged : Value → Option Value → Value
  | dict update, some (dict original) => dict (deepUpdate original update)
  | v, _ => v

end

/-! ## Strings -/

/-- The characters that `str.strip` removes. -/
def isSpace (c : Char) : Bool :=
  let n := c.toNat
  (9 ≤ n && n ≤ 13) || (28 ≤ n && n ≤ 32) || n = 133 || n = 160 || n = 5760 ||
    (8192 ≤ n && n ≤ 8202) || n = 8232 || n = 8233 || n = 8239 || n = 8287 || n = 12288

/-- `s.strip().lower() == target` for a target in lower-case ASCII letters. -/
def matchesWord (target s : String) : Bool :=
  let stripped := ((s.toList.dropWhile isSpace).reverse.dropWhile isSpace).reverse
  stripped.map Char.toLower = target.toList

end Value

end Lionagi.Ln
