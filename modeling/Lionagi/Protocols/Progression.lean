import Lionagi.Library.PySequence
import Lionagi.Protocols.Element

/-!
# Progressions

A progression is an ordered sequence of identifiers. Here its methods act on the sequence alone;
that the membership cache of the implementation never shows is proved in
`Lionagi.Protocols.ProgressionSync`. A method that raises returns the state it leaves behind.
-/

universe u v w

namespace Lionagi.Protocols

open PySequence

structure Progression (U : Type u) where
  id : U
  order : List U
  name : Option String
deriving DecidableEq

namespace Progression

variable {U : Type u} {α : Type v} {τ : Type w} [Observable α U τ]

/-! ## The methods on the order -/

def getItem (order : List U) (key : Int) : Except PyError U :=
  match PySequence.getItem order key with
  | some ref => .ok ref
  | none => .error .itemNotFoundError

/-- The order of the progression a slice returns; an empty selection is an error. -/
def getSlice (order : List U) (key : Slice) : Except PyError (List U) :=
  match PySequence.getSlice order key with
  | none => .error .valueError
  | some [] => .error .itemNotFoundError
  | some a => .ok a

/-- `p[key] = value` at one index: only the first reference is stored, and an index out of range
inserts it. -/
def setItem (order : List U) (key : Int) (value : Ref U α) : List U × Except PyError Unit :=
  match value.validateOrder with
  | .error e => (order, .error e)
  | .ok [] => (order, .error .indexError)
  | .ok (ref :: _) =>
    match PySequence.setItem order key ref with
    | some order' => (order', .ok ())
    | none => (insertAt order key ref, .ok ())

def setSlice (order : List U) (key : Slice) (value : Ref U α) : List U × Except PyError Unit :=
  match value.validateOrder with
  | .error e => (order, .error e)
  | .ok refs =>
    match PySequence.setSlice order key refs with
    | some order' => (order', .ok ())
    | none => (order, .error .valueError)

def delItem (order : List U) (key : Int) : List U × Except PyError Unit :=
  match PySequence.delItem order key with
  | some order' => (order', .ok ())
  | none => (order, .error .indexError)

def delSlice (order : List U) (key : Slice) : List U × Except PyError Unit :=
  match PySequence.delSlice order key with
  | some order' => (order', .ok ())
  | none => (order, .error .valueError)

def append (order : List U) (item : Ref U α) : List U × Except PyError Unit :=
  match item.validateOrder with
  | .error e => (order, .error e)
  | .ok refs => (order ++ refs, .ok ())

def insertRefs (order : List U) (index : Int) (refs : List U) : List U :=
  refs.foldr (fun ref acc ↦ insertAt acc index ref) order

def insert (order : List U) (index : Int) (item : Ref U α) : List U × Except PyError Unit :=
  match item.validateOrder with
  | .error e => (order, .error e)
  | .ok refs => (insertRefs order index refs, .ok ())

def pop (order : List U) (index : Int) : List U × Except PyError U :=
  match PySequence.getItem order index, PySequence.delItem order index with
  | some uid, some order' => (order', .ok uid)
  | _, _ => (order, .error .itemNotFoundError)

def popleft : List U → List U × Except PyError U
  | [] => ([], .error .itemNotFoundError)
  | uid :: rest => (rest, .ok uid)

def extend (order other : List U) : List U := order ++ other

def validateIndex (length : Nat) (index : Int) (allowEnd : Bool) : Except PyError Nat :=
  if length = 0 ∧ allowEnd = false then .error .itemNotFoundError
  else
    let index := if index < 0 then length + index else index
    let maxIndex : Int := if allowEnd then length else length - 1
    if index < 0 ∨ maxIndex < index then .error .itemNotFoundError else .ok index.toNat

def move (order : List U) (fromIndex toIndex : Int) : List U × Except PyError Unit :=
  match validateIndex order.length fromIndex false with
  | .error e => (order, .error e)
  | .ok source =>
    match validateIndex order.length toIndex true with
    | .error e => (order, .error e)
    | .ok target =>
      match order[source]? with
      | none => (order, .error .indexError)
      | some item =>
        let target := if source < target then target - 1 else target
        ((order.eraseIdx source).insertIdx target item, .ok ())

def swap (order : List U) (index1 index2 : Int) : List U × Except PyError Unit :=
  match validateIndex order.length index1 false with
  | .error e => (order, .error e)
  | .ok i =>
    match validateIndex order.length index2 false with
    | .error e => (order, .error e)
    | .ok j =>
      match order[i]?, order[j]? with
      | some x, some y => ((order.set i y).set j x, .ok ())
      | _, _ => (order, .error .indexError)

variable [DecidableEq U]

def contains (order : List U) (item : Ref U α) : Bool :=
  match item.validateOrder with
  | .error _ => false
  | .ok refs => refs.all (· ∈ order)

def includeRefs (order refs : List U) : List U :=
  refs.foldl (fun acc ref ↦ if ref ∈ acc then acc else acc ++ [ref]) order

/-- The result tells whether something was appended, or that nothing was asked for. -/
def includeItem (order : List U) (item : Ref U α) : List U × Bool :=
  match item.validateOrder with
  | .error _ => (order, false)
  | .ok [] => (order, true)
  | .ok refs => (includeRefs order refs, refs.any (· ∉ order))

def excludeRefs (order refs : List U) : List U :=
  order.filter (· ∉ refs)

def exclude (order : List U) (item : Ref U α) : List U × Bool :=
  match item.validateOrder with
  | .error _ => (order, false)
  | .ok [] => (order, true)
  | .ok refs => (excludeRefs order refs, decide ((excludeRefs order refs).length < order.length))

def remove (order : List U) (item : Ref U α) : List U × Except PyError Unit :=
  match item.validateOrder with
  | .error _ => (order, .error .itemNotFoundError)
  | .ok refs =>
    if refs.all (· ∈ order) then (excludeRefs order refs, .ok ())
    else (order, .error .itemNotFoundError)

/-! ## Members after a method -/

variable {order refs : List U}

theorem contains_iff {item : Ref U α} (h : item.validateOrder = .ok refs) :
    contains order item = true ↔ ∀ ref ∈ refs, ref ∈ order := by
  simp [contains, h]

theorem mem_includeRefs (order refs : List U) (u : U) :
    u ∈ includeRefs order refs ↔ u ∈ order ∨ u ∈ refs := by
  induction refs generalizing order with
  | nil => simp [includeRefs]
  | cons ref refs ih =>
    have hstep : includeRefs order (ref :: refs) =
        includeRefs (if ref ∈ order then order else order ++ [ref]) refs := rfl
    rw [hstep, ih]
    split
    · next hmem =>
      simp only [List.mem_cons]
      constructor
      · rintro (h | h)
        · exact Or.inl h
        · exact Or.inr (Or.inr h)
      · rintro (h | rfl | h)
        · exact Or.inl h
        · exact Or.inl hmem
        · exact Or.inr h
    · simp [or_assoc]

theorem nodup_includeRefs (h : order.Nodup) (refs : List U) : (includeRefs order refs).Nodup := by
  induction refs generalizing order with
  | nil => exact h
  | cons ref refs ih =>
    have hstep : includeRefs order (ref :: refs) =
        includeRefs (if ref ∈ order then order else order ++ [ref]) refs := rfl
    rw [hstep]
    apply ih
    split
    · exact h
    · next hmem =>
      refine List.nodup_append.2 ⟨h, List.nodup_singleton ref, ?_⟩
      rintro u hu v hv rfl
      exact hmem (List.mem_singleton.1 hv ▸ hu)

theorem mem_excludeRefs (order refs : List U) (u : U) :
    u ∈ excludeRefs order refs ↔ u ∈ order ∧ u ∉ refs := by
  simp [excludeRefs]

theorem nodup_excludeRefs (h : order.Nodup) (refs : List U) : (excludeRefs order refs).Nodup :=
  h.filter _

omit [DecidableEq U] in
theorem mem_insertRefs (order : List U) (index : Int) (refs : List U) (u : U) :
    u ∈ insertRefs order index refs ↔ u ∈ refs ∨ u ∈ order := by
  induction refs with
  | nil => simp [insertRefs]
  | cons ref refs ih =>
    have hstep : insertRefs order index (ref :: refs) =
        insertAt (insertRefs order index refs) index ref := rfl
    rw [hstep, mem_insertAt, ih, List.mem_cons, or_assoc]

omit [DecidableEq U] in
theorem nodup_insertRefs (horder : order.Nodup) (hrefs : refs.Nodup)
    (hfresh : ∀ ref ∈ refs, ref ∉ order) (index : Int) : (insertRefs order index refs).Nodup := by
  induction refs with
  | nil => exact horder
  | cons ref refs ih =>
    rw [List.nodup_cons] at hrefs
    refine nodup_insertAt (ih hrefs.2 fun r hr ↦ hfresh r (List.mem_cons_of_mem _ hr)) ?_ index
    rw [mem_insertRefs]
    rintro (h | h)
    · exact hrefs.1 h
    · exact hfresh ref List.mem_cons_self h

end Progression

end Lionagi.Protocols
