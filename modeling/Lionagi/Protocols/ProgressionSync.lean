import Lionagi.Library.Transition
import Lionagi.Protocols.MembersDeque
import Lionagi.Protocols.Progression

/-!
# The membership cache of progressions

A progression answers membership from a set that it shares with its order deque. The order is
public: callers mutate it in place, replace it, and pass one deque to several progressions. The
heap below has the deques, the sets and a family of progressions; its invariant says which sets can
be trusted, and from it every method acts on the order as its description in
`Lionagi.Protocols.Progression` does.
-/

universe u v w

set_option linter.unusedSectionVars false

namespace Lionagi.Protocols

open PySequence

/-- A plain deque, or a `_MembersDeque` with the set it is bound to, if any. -/
inductive Binding where
  | plain
  | members (ref : Option Nat)
deriving DecidableEq

structure DequeObject (U : Type u) where
  elems : List U
  binding : Binding

/-- The fields of one progression: its order deque, its membership set and the length noted at the
last synchronisation. -/
structure ProgressionObject where
  order : Nat
  members : Nat
  orderLen : Nat

/-- Deques and sets are addressed by numbers below the two counters. -/
structure SyncHeap (U : Type u) (ι : Type v) where
  deques : Nat → DequeObject U
  sets : Nat → Finset U
  nextDeque : Nat
  nextSet : Nat
  progs : ι → ProgressionObject

namespace SyncHeap

variable {U : Type u} {ι : Type v} {α : Type w} {τ : Type*} [Observable α U τ] [DecidableEq U]
  [DecidableEq ι]

/-- `list(p.order)` -/
def orderOf (h : SyncHeap U ι) (p : ι) : List U := (h.deques (h.progs p).order).elems

def membersOf (h : SyncHeap U ι) (p : ι) : Finset U := h.sets (h.progs p).members

/-! ## Primitive changes -/

def setProg (h : SyncHeap U ι) (p : ι) (object : ProgressionObject) : SyncHeap U ι :=
  { h with progs := Function.update h.progs p object }

/-- A mutator called on a deque object; a bound set changes with it. -/
def mutate (h : SyncHeap U ι) (d : Nat) (op : DequeOp U) : SyncHeap U ι :=
  match op.effect (h.deques d).elems with
  | none => h
  | some (elems, f) =>
    let deques := Function.update h.deques d { h.deques d with elems }
    match (h.deques d).binding with
    | .members (some s) => { h with deques, sets := Function.update h.sets s (f (h.sets s)) }
    | _ => { h with deques }

/-- `p.order = d` for a deque that exists -/
def setOrder (h : SyncHeap U ι) (p : ι) (d : Nat) : SyncHeap U ι :=
  h.setProg p { h.progs p with order := d }

/-- `p.order = deque(elems)`, or an unbound `_MembersDeque` of the same elements -/
def replaceOrder (h : SyncHeap U ι) (p : ι) (elems : List U) (wrapped : Bool) : SyncHeap U ι :=
  let binding := if wrapped then Binding.members none else Binding.plain
  setOrder { h with
    deques := Function.update h.deques h.nextDeque { elems, binding }
    nextDeque := h.nextDeque + 1 } p h.nextDeque

/-- `self.order = _MembersDeque(self.order)` unless it is one already -/
def wrapOrder (h : SyncHeap U ι) (p : ι) : SyncHeap U ι :=
  match (h.deques (h.progs p).order).binding with
  | .plain => h.replaceOrder p (h.orderOf p) true
  | .members _ => h

/-- The rest of `_rebuild_members`: a new set, bound to the order, and the length. -/
def rebind (h : SyncHeap U ι) (p : ι) : SyncHeap U ι :=
  let d := (h.progs p).order
  setProg { h with
    sets := Function.update h.sets h.nextSet (h.orderOf p).toFinset
    deques := Function.update h.deques d
      { h.deques d with binding := .members (some h.nextSet) }
    nextSet := h.nextSet + 1 } p
      { order := d, members := h.nextSet, orderLen := (h.orderOf p).length }

/-- `_rebuild_members` -/
def rebuildMembers (h : SyncHeap U ι) (p : ι) : SyncHeap U ι := (h.wrapOrder p).rebind p

/-- `_ensure_synced` -/
def ensureSynced (h : SyncHeap U ι) (p : ι) : SyncHeap U ι :=
  if (h.deques (h.progs p).order).binding = .members (some (h.progs p).members) ∧
      (h.orderOf p).length = (h.progs p).orderLen then h
  else h.rebuildMembers p

/-- `self.order.op(...)` -/
def mutateOrder (h : SyncHeap U ι) (p : ι) (op : DequeOp U) : SyncHeap U ι :=
  h.mutate (h.progs p).order op

/-- `self._order_len = len(self.order)` -/
def noteLen (h : SyncHeap U ι) (p : ι) : SyncHeap U ι :=
  h.setProg p { h.progs p with orderLen := (h.orderOf p).length }

def addMember (h : SyncHeap U ι) (p : ι) (u : U) : SyncHeap U ι :=
  let s := (h.progs p).members
  { h with sets := Function.update h.sets s (insert u (h.sets s)) }

/-! ## The methods of a progression -/

/-- `u in p` -/
def contains (h : SyncHeap U ι) (p : ι) (item : Ref U α) : SyncHeap U ι × Bool :=
  match item.validateOrder with
  | .error _ => (h, false)
  | .ok refs =>
    let h := h.ensureSynced p
    (h, refs.all (· ∈ h.membersOf p))

def replaceAndRebuild (h : SyncHeap U ι) (p : ι) (elems : List U) : SyncHeap U ι :=
  (h.replaceOrder p elems false).rebuildMembers p

def setItem (h : SyncHeap U ι) (p : ι) (key : Int) (value : Ref U α) :
    SyncHeap U ι × Except PyError Unit :=
  match value.validateOrder with
  | .error e => (h, .error e)
  | .ok refs =>
    let h := h.ensureSynced p
    match refs with
    | [] => (h, .error .indexError)
    | ref :: _ =>
      match normIndex (h.orderOf p).length key with
      | some _ => ((h.mutateOrder p (.setitem key ref)).noteLen p, .ok ())
      | none => ((h.mutateOrder p (.insert key ref)).noteLen p, .ok ())

def setSlice (h : SyncHeap U ι) (p : ι) (key : Slice) (value : Ref U α) :
    SyncHeap U ι × Except PyError Unit :=
  match value.validateOrder with
  | .error e => (h, .error e)
  | .ok refs =>
    match PySequence.setSlice (h.orderOf p) key refs with
    | some asList => (h.replaceAndRebuild p asList, .ok ())
    | none => (h, .error .valueError)

def delItem (h : SyncHeap U ι) (p : ι) (key : Int) : SyncHeap U ι × Except PyError Unit :=
  match normIndex (h.orderOf p).length key with
  | some _ => ((h.mutateOrder p (.delitem key)).rebuildMembers p, .ok ())
  | none => (h, .error .indexError)

def delSlice (h : SyncHeap U ι) (p : ι) (key : Slice) : SyncHeap U ι × Except PyError Unit :=
  match PySequence.delSlice (h.orderOf p) key with
  | some asList => (h.replaceAndRebuild p asList, .ok ())
  | none => (h, .error .valueError)

/-- `clear` does not synchronise first. -/
def clear (h : SyncHeap U ι) (p : ι) : SyncHeap U ι :=
  let h := h.mutateOrder p .clear
  let h := { h with sets := Function.update h.sets (h.progs p).members ∅ }
  h.setProg p { h.progs p with orderLen := 0 }

def includeRefs (h : SyncHeap U ι) (p : ι) : List U → SyncHeap U ι × Bool
  | [] => (h, false)
  | ref :: refs =>
    if ref ∈ h.membersOf p then h.includeRefs p refs
    else ((((h.mutateOrder p (.append ref)).addMember p ref).includeRefs p refs).1, true)

def includeItem (h : SyncHeap U ι) (p : ι) (item : Ref U α) : SyncHeap U ι × Bool :=
  match item.validateOrder with
  | .error _ => (h, false)
  | .ok [] => (h, true)
  | .ok refs =>
    let (h, appended) := (h.ensureSynced p).includeRefs p refs
    (h.noteLen p, appended)

def exclude (h : SyncHeap U ι) (p : ι) (item : Ref U α) : SyncHeap U ι × Bool :=
  match item.validateOrder with
  | .error _ => (h, false)
  | .ok [] => (h, true)
  | .ok refs =>
    let before := (h.orderOf p).length
    let h := h.replaceAndRebuild p ((h.orderOf p).filter (· ∉ refs))
    (h, decide ((h.orderOf p).length < before))

def append (h : SyncHeap U ι) (p : ι) (item : Ref U α) : SyncHeap U ι × Except PyError Unit :=
  let h := h.ensureSynced p
  match item.validateOrder with
  | .error e => (h, .error e)
  | .ok refs => ((h.mutateOrder p (.extend refs)).noteLen p, .ok ())

def pop (h : SyncHeap U ι) (p : ι) (index : Int) : SyncHeap U ι × Except PyError U :=
  let h := h.ensureSynced p
  let order := h.orderOf p
  if index = -1 ∨ index = order.length - 1 then
    match order.getLast? with
    | some uid => ((h.mutateOrder p .pop).noteLen p, .ok uid)
    | none => (h, .error .itemNotFoundError)
  else if index = 0 then
    match order.head? with
    | some uid => ((h.mutateOrder p .popleft).noteLen p, .ok uid)
    | none => (h, .error .itemNotFoundError)
  else
    match getItem order index with
    | some uid => ((h.mutateOrder p (.delitem index)).noteLen p, .ok uid)
    | none => (h, .error .itemNotFoundError)

def popleft (h : SyncHeap U ι) (p : ι) : SyncHeap U ι × Except PyError U :=
  match (h.orderOf p).head? with
  | none => (h, .error .itemNotFoundError)
  | some uid => (((h.ensureSynced p).mutateOrder p .popleft).noteLen p, .ok uid)

def remove (h : SyncHeap U ι) (p : ι) (item : Ref U α) : SyncHeap U ι × Except PyError Unit :=
  match item.validateOrder with
  | .error _ => (h, .error .itemNotFoundError)
  | .ok [] => (h, .ok ())
  | .ok refs =>
    let h := h.ensureSynced p
    if refs.all (· ∈ h.membersOf p) then
      (h.replaceAndRebuild p ((h.orderOf p).filter (· ∉ refs)), .ok ())
    else (h, .error .itemNotFoundError)

def extend (h : SyncHeap U ι) (p other : ι) : SyncHeap U ι :=
  let h := h.ensureSynced p
  (h.mutateOrder p (.extend (h.orderOf other))).noteLen p

/-- The references are inserted from the last to the first at one index. -/
def insert (h : SyncHeap U ι) (p : ι) (index : Int) (item : Ref U α) :
    SyncHeap U ι × Except PyError Unit :=
  match item.validateOrder with
  | .error e => (h, .error e)
  | .ok refs =>
    let h := refs.foldr (fun uid h ↦ h.mutateOrder p (.insert index uid)) (h.ensureSynced p)
    (h.noteLen p, .ok ())

def move (h : SyncHeap U ι) (p : ι) (fromIndex toIndex : Int) :
    SyncHeap U ι × Except PyError Unit :=
  let h := h.ensureSynced p
  match Progression.validateIndex (h.orderOf p).length fromIndex false with
  | .error e => (h, .error e)
  | .ok source =>
    match Progression.validateIndex (h.orderOf p).length toIndex true with
    | .error e => (h, .error e)
    | .ok target =>
      match (h.orderOf p)[source]? with
      | none => (h, .error .indexError)
      | some item =>
        let target := if source < target then target - 1 else target
        ((h.mutateOrder p (.delitem source)).mutateOrder p (.insert target item), .ok ())

def swap (h : SyncHeap U ι) (p : ι) (index1 index2 : Int) : SyncHeap U ι × Except PyError Unit :=
  let h := h.ensureSynced p
  match Progression.validateIndex (h.orderOf p).length index1 false with
  | .error e => (h, .error e)
  | .ok i =>
    match Progression.validateIndex (h.orderOf p).length index2 false with
    | .error e => (h, .error e)
    | .ok j =>
      match (h.orderOf p)[i]?, (h.orderOf p)[j]? with
      | some x, some y =>
        ((h.mutateOrder p (.setitem i y)).mutateOrder p (.setitem j x), .ok ())
      | _, _ => (h, .error .indexError)

def reverse (h : SyncHeap U ι) (p : ι) : SyncHeap U ι :=
  (h.ensureSynced p).mutateOrder p .reverse

/-! ## The invariant -/

def Bound (h : SyncHeap U ι) (d s : Nat) : Prop := (h.deques d).binding = .members (some s)

/-- A set is bound to at most one deque and is the cache of at most one progression. A deque bound
to the cache of a progression has all its elements in the cache, unless the progression was cleared
since; in no case does the cache hold anything else. -/
structure Synced (h : SyncHeap U ι) : Prop where
  order_lt : ∀ p, (h.progs p).order < h.nextDeque
  members_lt : ∀ p, (h.progs p).members < h.nextSet
  bound_lt : ∀ d s, h.Bound d s → s < h.nextSet
  bound_inj : ∀ d d' s, h.Bound d s → h.Bound d' s → d = d'
  members_inj : ∀ p q, (h.progs p).members = (h.progs q).members → p = q
  cached : ∀ p d, h.Bound d (h.progs p).members →
    h.membersOf p ⊆ (h.deques d).elems.toFinset ∧
      (h.membersOf p = (h.deques d).elems.toFinset ∨ (h.progs p).orderLen = 0)

/-- The order of `p` is bound to its cache, and the cache is exact. -/
structure Owned (h : SyncHeap U ι) (p : ι) : Prop where
  bound : h.Bound (h.progs p).order (h.progs p).members
  exact : h.membersOf p = (h.orderOf p).toFinset

variable {h : SyncHeap U ι} {p : ι}

theorem Owned.mem_iff (howned : h.Owned p) (u : U) : u ∈ h.membersOf p ↔ u ∈ h.orderOf p := by
  rw [howned.exact, List.mem_toFinset]

/-! ## Mutating a deque -/

/-- The elements a mutator leaves: unchanged when it raises. -/
def applied (op : DequeOp U) (elems : List U) : List U :=
  (op.effect elems).elim elems Prod.fst

/-- What a mutator does to a bound set; nothing when it raises. -/
def effectOn (op : DequeOp U) (elems : List U) (members : Finset U) : Finset U :=
  (op.effect elems).elim members fun result ↦ result.2 members

theorem faithful_applied (op : DequeOp U) (elems : List U) :
    DequeOp.Faithful elems (applied op elems) (effectOn op elems) := by
  unfold applied effectOn
  cases heffect : op.effect elems with
  | none => exact DequeOp.faithful_id fun _ ↦ Iff.rfl
  | some result => exact DequeOp.faithful_effect heffect

@[simp] theorem progs_mutate (h : SyncHeap U ι) (d : Nat) (op : DequeOp U) :
    (h.mutate d op).progs = h.progs := by
  unfold mutate
  split
  · rfl
  · split <;> rfl

@[simp] theorem nextDeque_mutate (h : SyncHeap U ι) (d : Nat) (op : DequeOp U) :
    (h.mutate d op).nextDeque = h.nextDeque := by
  unfold mutate
  split
  · rfl
  · split <;> rfl

@[simp] theorem nextSet_mutate (h : SyncHeap U ι) (d : Nat) (op : DequeOp U) :
    (h.mutate d op).nextSet = h.nextSet := by
  unfold mutate
  split
  · rfl
  · split <;> rfl

theorem deques_mutate (h : SyncHeap U ι) (d : Nat) (op : DequeOp U) :
    (h.mutate d op).deques = Function.update h.deques d
      { h.deques d with elems := applied op (h.deques d).elems } := by
  unfold mutate applied
  cases op.effect (h.deques d).elems with
  | none => simp
  | some result =>
    simp only
    split <;> rfl

theorem elems_mutate (h : SyncHeap U ι) (d d' : Nat) (op : DequeOp U) :
    ((h.mutate d op).deques d').elems =
      if d' = d then applied op (h.deques d).elems else (h.deques d').elems := by
  rw [deques_mutate, Function.update_apply]
  split <;> rfl

@[simp] theorem binding_mutate (h : SyncHeap U ι) (d d' : Nat) (op : DequeOp U) :
    ((h.mutate d op).deques d').binding = (h.deques d').binding := by
  rw [deques_mutate, Function.update_apply]
  split
  · next heq => rw [heq]
  · rfl

@[simp] theorem bound_mutate (h : SyncHeap U ι) (d : Nat) (op : DequeOp U) (d' s : Nat) :
    (h.mutate d op).Bound d' s ↔ h.Bound d' s := by
  simp [Bound]

variable {d j n : Nat}

theorem sets_mutate_of_bound {s : Nat} (hbound : h.Bound d s) (op : DequeOp U) :
    (h.mutate d op).sets s = effectOn op (h.deques d).elems (h.sets s) := by
  unfold mutate effectOn
  cases op.effect (h.deques d).elems with
  | none => rfl
  | some result =>
    rw [Bound] at hbound
    simp [hbound]

theorem sets_mutate_of_not_bound {s : Nat} (hbound : ¬ h.Bound d s) (op : DequeOp U) :
    (h.mutate d op).sets s = h.sets s := by
  unfold mutate
  split
  · rfl
  · simp only
    split
    · next s' hs' =>
      have hne : s ≠ s' := fun heq ↦ hbound (heq ▸ hs')
      simp [hne]
    · rfl

theorem synced_mutate (hs : h.Synced) (d : Nat) (op : DequeOp U) :
    (h.mutate d op).Synced where
  order_lt p := by simpa using hs.order_lt p
  members_lt p := by simpa using hs.members_lt p
  bound_lt d' s hb := by simpa using hs.bound_lt d' s ((bound_mutate h d op d' s).1 hb)
  bound_inj d₁ d₂ s h₁ h₂ :=
    hs.bound_inj d₁ d₂ s ((bound_mutate h d op d₁ s).1 h₁) ((bound_mutate h d op d₂ s).1 h₂)
  members_inj p q heq := hs.members_inj p q (by simpa using heq)
  cached p d' hb := by
    simp only [progs_mutate, bound_mutate] at hb
    have hcached := hs.cached p d' hb
    simp only [membersOf, progs_mutate, elems_mutate] at hcached ⊢
    split
    · next heq =>
      subst heq
      obtain ⟨hexact, hpart⟩ := faithful_applied op (h.deques d').elems
      rw [sets_mutate_of_bound hb]
      exact ⟨hpart _ hcached.1, hcached.2.imp_left fun heq ↦ by rw [heq, hexact]⟩
    · next hne =>
      have hnot : ¬ h.Bound d (h.progs p).members := fun hb' ↦ hne (hs.bound_inj _ _ _ hb hb')
      rw [sets_mutate_of_not_bound hnot]
      exact hcached

theorem orderOf_mutateOrder (h : SyncHeap U ι) (p : ι) (op : DequeOp U) :
    (h.mutateOrder p op).orderOf p = applied op (h.orderOf p) := by
  simp [orderOf, mutateOrder, elems_mutate]

theorem owned_mutateOrder (howned : h.Owned p) (op : DequeOp U) :
    (h.mutateOrder p op).Owned p where
  bound := by simpa [mutateOrder] using howned.bound
  exact := by
    rw [orderOf_mutateOrder, ← (faithful_applied op (h.orderOf p)).1, ← howned.exact]
    simp only [membersOf, mutateOrder, progs_mutate]
    exact sets_mutate_of_bound howned.bound op

/-! ## Rebuilding the cache -/

/-- Changing a progression's order or noted length while it keeps its cache. -/
theorem synced_setProg (hs : h.Synced) (p : ι) {object : ProgressionObject} (horder : object.order < h.nextDeque)
    (hmembers : object.members = (h.progs p).members)
    (hcached : ∀ d, h.Bound d (h.progs p).members → h.membersOf p = (h.deques d).elems.toFinset ∨ object.orderLen = 0) :
    (h.setProg p object).Synced := by
  have hsame : ∀ q, ((h.setProg p object).progs q).members = (h.progs q).members := by
    intro q
    simp only [setProg, Function.update_apply]
    split
    · next heq => rw [heq, hmembers]
    · rfl
  refine ⟨fun q ↦ ?_, fun q ↦ ?_, hs.bound_lt, hs.bound_inj, fun q r heq ↦ ?_, fun q d hb ↦ ?_⟩
  · simp only [setProg, Function.update_apply]
    split
    · exact horder
    · exact hs.order_lt q
  · rw [hsame]
    exact hs.members_lt q
  · rw [hsame, hsame] at heq
    exact hs.members_inj q r heq
  · rw [hsame] at hb
    simp only [membersOf, hsame]
    refine ⟨(hs.cached q d hb).1, ?_⟩
    by_cases hq : q = p
    · subst hq
      simpa [setProg, membersOf] using hcached d hb
    · simpa [setProg, hq, membersOf] using (hs.cached q d hb).2

theorem synced_setOrder (hs : h.Synced) (p : ι) (hd : d < h.nextDeque) : (h.setOrder p d).Synced :=
  synced_setProg hs p hd rfl fun d' hb ↦ (hs.cached p d' hb).2

/-- A deque at a fresh address that is bound to nothing. -/
theorem synced_allocate (hs : h.Synced) {object : DequeObject U} (hobject : ∀ s, object.binding ≠ .members (some s)) :
    ({ h with deques := Function.update h.deques h.nextDeque object
              nextDeque := h.nextDeque + 1 } : SyncHeap U ι).Synced := by
  have hbound : ∀ {d s}, (Function.update h.deques h.nextDeque object d).binding =
      .members (some s) → d ≠ h.nextDeque ∧ h.Bound d s := by
    intro d s hb
    rw [Function.update_apply] at hb
    split at hb
    · exact absurd hb (hobject s)
    · next hne => exact ⟨hne, hb⟩
  refine ⟨fun q ↦ Nat.lt_succ_of_lt (hs.order_lt q), hs.members_lt,
    fun d s hb ↦ hs.bound_lt d s (hbound hb).2,
    fun d d' s hb hb' ↦ hs.bound_inj d d' s (hbound hb).2 (hbound hb').2, hs.members_inj,
    fun q d hb ↦ ?_⟩
  obtain ⟨hne, hb'⟩ := hbound hb
  simp only [Function.update_of_ne hne]
  exact hs.cached q d hb'

theorem synced_replaceOrder (hs : h.Synced) (p : ι) (elems : List U) (wrapped : Bool) :
    (h.replaceOrder p elems wrapped).Synced := by
  refine synced_setOrder (synced_allocate hs fun s ↦ ?_) p (Nat.lt_succ_self h.nextDeque)
  cases wrapped <;> simp

@[simp] theorem orderOf_replaceOrder (h : SyncHeap U ι) (p : ι) (elems : List U) (wrapped : Bool) :
    (h.replaceOrder p elems wrapped).orderOf p = elems := by
  simp [orderOf, replaceOrder, setOrder, setProg]

theorem synced_wrapOrder (hs : h.Synced) (p : ι) : (h.wrapOrder p).Synced := by
  unfold wrapOrder
  split
  · exact synced_replaceOrder hs p _ true
  · exact hs

@[simp] theorem orderOf_wrapOrder (h : SyncHeap U ι) (p : ι) :
    (h.wrapOrder p).orderOf p = h.orderOf p := by
  unfold wrapOrder
  split
  · simp
  · rfl

@[simp] theorem orderOf_rebind (h : SyncHeap U ι) (p : ι) :
    (h.rebind p).orderOf p = h.orderOf p := by
  simp [orderOf, rebind, setProg]

theorem members_rebind (h : SyncHeap U ι) (p q : ι) :
    ((h.rebind p).progs q).members = if q = p then h.nextSet else (h.progs q).members := by
  simp only [rebind, setProg, Function.update_apply]
  split <;> rfl

theorem bound_rebind_iff (h : SyncHeap U ι) (p : ι) (d s : Nat) :
    (h.rebind p).Bound d s ↔
      if d = (h.progs p).order then s = h.nextSet else h.Bound d s := by
  simp only [Bound, rebind, setProg, Function.update_apply]
  split
  · simp [eq_comm]
  · rfl

theorem elems_rebind (h : SyncHeap U ι) (p : ι) (d : Nat) :
    ((h.rebind p).deques d).elems = (h.deques d).elems := by
  simp only [rebind, setProg, Function.update_apply]
  split
  · next heq => rw [heq]
  · rfl

theorem owned_rebind (h : SyncHeap U ι) (p : ι) : (h.rebind p).Owned p where
  bound := by
    rw [bound_rebind_iff, members_rebind]
    simp [rebind, setProg]
  exact := by
    rw [orderOf_rebind]
    simp [membersOf, rebind, setProg]

theorem synced_rebind (hs : h.Synced) (p : ι) : (h.rebind p).Synced := by
  have hfresh : ∀ q, (h.progs q).members ≠ h.nextSet := fun q heq ↦ by
    have hlt := hs.members_lt q
    omega
  refine ⟨fun q ↦ ?_, fun q ↦ ?_, fun d s hb ↦ ?_, fun d d' s hb hb' ↦ ?_, fun q r heq ↦ ?_,
    fun q d hb ↦ ?_⟩
  · simp only [rebind, setProg, Function.update_apply]
    split
    · exact hs.order_lt p
    · exact hs.order_lt q
  · rw [members_rebind]
    have hlt := hs.members_lt q
    change _ < h.nextSet + 1
    split <;> omega
  · rw [bound_rebind_iff] at hb
    change s < h.nextSet + 1
    split at hb
    · omega
    · have hlt := hs.bound_lt d s hb
      omega
  · rw [bound_rebind_iff] at hb hb'
    split at hb <;> split at hb'
    · next hd hd' => rw [hd, hd']
    · have hlt := hs.bound_lt d' s hb'
      omega
    · have hlt := hs.bound_lt d s hb
      omega
    · exact hs.bound_inj d d' s hb hb'
  · rw [members_rebind, members_rebind] at heq
    split at heq <;> split at heq
    · next hq hr => rw [hq, hr]
    · exact absurd heq.symm (hfresh r)
    · exact absurd heq (hfresh q)
    · exact hs.members_inj q r heq
  · by_cases hq : q = p
    · subst hq
      have howned := owned_rebind h q
      rw [members_rebind, if_pos rfl, bound_rebind_iff] at hb
      split at hb
      · next hd =>
        have helems : ((h.rebind q).deques d).elems = (h.rebind q).orderOf q := by
          rw [elems_rebind, orderOf_rebind, hd, orderOf]
        rw [howned.exact, helems]
        exact ⟨Finset.Subset.refl _, Or.inl rfl⟩
      · have hlt := hs.bound_lt d h.nextSet hb
        omega
    · rw [members_rebind, if_neg hq, bound_rebind_iff] at hb
      split at hb
      · exact absurd hb (hfresh q)
      · have hcached := hs.cached q d hb
        have hsets : (h.rebind p).membersOf q = h.membersOf q := by
          simp only [membersOf, members_rebind, if_neg hq]
          simp [rebind, setProg, Function.update_of_ne (hfresh q)]
        have hlen : ((h.rebind p).progs q).orderLen = (h.progs q).orderLen := by
          simp [rebind, setProg, hq]
        rw [hsets, elems_rebind, hlen]
        exact hcached

theorem synced_rebuildMembers (hs : h.Synced) (p : ι) : (h.rebuildMembers p).Synced :=
  synced_rebind (synced_wrapOrder hs p) p

theorem owned_rebuildMembers (h : SyncHeap U ι) (p : ι) : (h.rebuildMembers p).Owned p :=
  owned_rebind _ p

@[simp] theorem orderOf_rebuildMembers (h : SyncHeap U ι) (p : ι) :
    (h.rebuildMembers p).orderOf p = h.orderOf p := by
  simp [rebuildMembers]

/-- Synchronising leaves the order as it is and makes the cache exact. -/
theorem ensureSynced_spec (hs : h.Synced) (p : ι) :
    (h.ensureSynced p).Synced ∧ (h.ensureSynced p).Owned p ∧
      (h.ensureSynced p).orderOf p = h.orderOf p := by
  unfold ensureSynced
  split
  · next hcond =>
    refine ⟨hs, ⟨hcond.1, ?_⟩, rfl⟩
    obtain ⟨hpart, hexact | hlen⟩ := hs.cached p _ hcond.1
    · exact hexact
    · have hnil : h.orderOf p = [] := List.length_eq_zero_iff.1 (hcond.2.trans hlen)
      change h.membersOf p ⊆ (h.orderOf p).toFinset at hpart
      rw [hnil] at hpart ⊢
      exact Finset.subset_empty.1 hpart
  · exact ⟨synced_rebuildMembers hs p, owned_rebuildMembers h p, orderOf_rebuildMembers h p⟩

theorem synced_noteLen (hs : h.Synced) (howned : h.Owned p) : (h.noteLen p).Synced := by
  refine synced_setProg hs p (hs.order_lt p) rfl fun d hb ↦ Or.inl ?_
  have hd : d = (h.progs p).order := hs.bound_inj _ _ _ hb howned.bound
  rw [howned.exact, hd, orderOf]

@[simp] theorem orderOf_noteLen (h : SyncHeap U ι) (p : ι) :
    (h.noteLen p).orderOf p = h.orderOf p := by
  simp [orderOf, noteLen, setProg]

theorem addMember_eq_self {u : U} (hu : u ∈ h.membersOf p) : h.addMember p u = h := by
  have hinsert : Insert.insert u (h.sets (h.progs p).members) = h.sets (h.progs p).members :=
    Finset.insert_eq_of_mem hu
  simp [addMember, hinsert]

/-- A progression whose noted length is zero may drop its cache. -/
theorem synced_emptyMembers (hs : h.Synced) (hlen : (h.progs p).orderLen = 0) :
    ({ h with sets := Function.update h.sets (h.progs p).members ∅ } : SyncHeap U ι).Synced := by
  refine ⟨hs.order_lt, hs.members_lt, hs.bound_lt, hs.bound_inj, hs.members_inj, fun q d hb ↦ ?_⟩
  by_cases hq : q = p
  · subst hq
    simp [membersOf, hlen]
  · have hne : (h.progs q).members ≠ (h.progs p).members := fun heq ↦ hq (hs.members_inj q p heq)
    simpa [membersOf, hne] using hs.cached q d hb

theorem synced_clear (hs : h.Synced) (p : ι) : (h.clear p).Synced := by
  have hmutated : (h.mutateOrder p .clear).Synced := synced_mutate hs _ _
  have hnoted : ((h.mutateOrder p .clear).setProg p
      { (h.mutateOrder p .clear).progs p with orderLen := 0 }).Synced :=
    synced_setProg hmutated p (hmutated.order_lt p) rfl fun _ _ ↦ Or.inr rfl
  have hempty := synced_emptyMembers (p := p) hnoted (by simp [setProg])
  simpa [clear, setProg] using hempty

@[simp] theorem orderOf_clear (h : SyncHeap U ι) (p : ι) : (h.clear p).orderOf p = [] := by
  have horder : (h.clear p).orderOf p = (h.mutateOrder p .clear).orderOf p := by
    simp [clear, orderOf, setProg]
  rw [horder, orderOf_mutateOrder]
  rfl

/-! ## Every method acts on the order alone -/

/-- A method keeps the invariant, and its order and result are those of the method on sequences. -/
structure Refines {ε : Type*} (p : ι) (result : SyncHeap U ι × ε) (spec : List U × ε) : Prop where
  synced : result.1.Synced
  order_eq : result.1.orderOf p = spec.1
  result_eq : result.2 = spec.2

theorem synced_mutateOrder (hs : h.Synced) (p : ι) (op : DequeOp U) : (h.mutateOrder p op).Synced :=
  synced_mutate hs _ op

variable {ε : Type*} {elems : List U}

theorem refines_mutate (hs : h.Synced) (howned : h.Owned p) {op : DequeOp U} (hop : applied op (h.orderOf p) = elems)
    (result : ε) :
    Refines p ((h.mutateOrder p op).noteLen p, result) (elems, result) where
  synced := synced_noteLen (synced_mutateOrder hs p op) (owned_mutateOrder howned op)
  order_eq := by rw [orderOf_noteLen, orderOf_mutateOrder, hop]
  result_eq := rfl

theorem refines_replaceAndRebuild (hs : h.Synced) (p : ι) (elems : List U) (result : ε) :
    Refines p (h.replaceAndRebuild p elems, result) (elems, result) where
  synced := synced_rebuildMembers (synced_replaceOrder hs p elems false) p
  order_eq := by simp [replaceAndRebuild]
  result_eq := rfl

theorem refines_refl (hs : h.Synced) (p : ι) (result : ε) : Refines p (h, result) (h.orderOf p, result) :=
  ⟨hs, rfl, rfl⟩

theorem all_members_eq (howned : h.Owned p) (refs : List U) :
    (refs.all fun ref ↦ ref ∈ h.membersOf p) = refs.all fun ref ↦ ref ∈ h.orderOf p := by
  simp only [howned.mem_iff]

theorem contains_refines (hs : h.Synced) (p : ι) (item : Ref U α) :
    Refines p (h.contains p item) (h.orderOf p, Progression.contains (h.orderOf p) item) := by
  unfold contains Progression.contains
  obtain ⟨hs', howned, horder⟩ := ensureSynced_spec hs p
  cases item.validateOrder with
  | error e => exact refines_refl hs p false
  | ok refs => exact ⟨hs', horder, by rw [← horder]; exact all_members_eq howned refs⟩

variable {index : Int}

theorem applied_setitem (hj : normIndex elems.length index = some j) (x : U) :
    applied (.setitem index x) elems = elems.set j x := by
  have hlt := normIndex_lt hj
  simp [applied, DequeOp.effect, getItem, PySequence.setItem, hj, hlt]

theorem applied_delitem (hj : normIndex elems.length index = some j) :
    applied (.delitem index) elems = elems.eraseIdx j := by
  have hlt := normIndex_lt hj
  simp [applied, DequeOp.effect, getItem, PySequence.delItem, hj, hlt]

theorem setItem_refines (hs : h.Synced) (p : ι) (key : Int) (value : Ref U α) :
    Refines p (h.setItem p key value) (Progression.setItem (h.orderOf p) key value) := by
  unfold setItem Progression.setItem
  obtain ⟨hs', howned, horder⟩ := ensureSynced_spec hs p
  cases value.validateOrder with
  | error e => exact refines_refl hs p _
  | ok refs =>
    cases refs with
    | nil => exact horder ▸ refines_refl hs' p _
    | cons ref rest =>
      simp only [← horder, PySequence.setItem]
      cases hj : normIndex ((h.ensureSynced p).orderOf p).length key with
      | none => exact refines_mutate hs' howned rfl _
      | some j => exact refines_mutate hs' howned (applied_setitem hj ref) _

theorem setSlice_refines (hs : h.Synced) (p : ι) (key : Slice) (value : Ref U α) :
    Refines p (h.setSlice p key value) (Progression.setSlice (h.orderOf p) key value) := by
  unfold setSlice Progression.setSlice
  cases value.validateOrder with
  | error e => exact refines_refl hs p _
  | ok refs =>
    simp only
    cases PySequence.setSlice (h.orderOf p) key refs with
    | none => exact refines_refl hs p _
    | some asList => exact refines_replaceAndRebuild hs p asList _

theorem delItem_refines (hs : h.Synced) (p : ι) (key : Int) :
    Refines p (h.delItem p key) (Progression.delItem (h.orderOf p) key) := by
  unfold delItem Progression.delItem PySequence.delItem
  cases hj : normIndex (h.orderOf p).length key with
  | none => exact refines_refl hs p _
  | some j =>
    refine ⟨synced_rebuildMembers (synced_mutateOrder hs p _) p, ?_, rfl⟩
    rw [orderOf_rebuildMembers, orderOf_mutateOrder, applied_delitem hj]
    rfl

theorem delSlice_refines (hs : h.Synced) (p : ι) (key : Slice) :
    Refines p (h.delSlice p key) (Progression.delSlice (h.orderOf p) key) := by
  unfold delSlice Progression.delSlice
  cases PySequence.delSlice (h.orderOf p) key with
  | none => exact refines_refl hs p _
  | some asList => exact refines_replaceAndRebuild hs p asList _

theorem clear_refines (hs : h.Synced) (p : ι) : Refines p (h.clear p, ()) ([], ()) :=
  ⟨synced_clear hs p, orderOf_clear h p, rfl⟩

theorem includeRefs_spec (hs : h.Synced) (howned : h.Owned p) (refs : List U) :
    (h.includeRefs p refs).1.Synced ∧ (h.includeRefs p refs).1.Owned p ∧
      (h.includeRefs p refs).1.orderOf p = Progression.includeRefs (h.orderOf p) refs ∧
      (h.includeRefs p refs).2 = refs.any fun ref ↦ ref ∉ h.orderOf p := by
  induction refs generalizing h with
  | nil => exact ⟨hs, howned, rfl, rfl⟩
  | cons ref refs ih =>
    have hstep : Progression.includeRefs (h.orderOf p) (ref :: refs) = Progression.includeRefs
        (if ref ∈ h.orderOf p then h.orderOf p else h.orderOf p ++ [ref]) refs := rfl
    rw [includeRefs, hstep]
    split
    · next hmem =>
      rw [howned.mem_iff] at hmem
      obtain ⟨hs', howned', horder, hflag⟩ := ih hs howned
      exact ⟨hs', howned', by rw [horder, if_pos hmem], by simpa [hmem] using hflag⟩
    · next hmem =>
      rw [howned.mem_iff] at hmem
      have howned₁ := owned_mutateOrder howned (.append ref)
      have horder₁ : (h.mutateOrder p (.append ref)).orderOf p = h.orderOf p ++ [ref] :=
        orderOf_mutateOrder h p (.append ref)
      have hadded : (h.mutateOrder p (.append ref)).addMember p ref =
          h.mutateOrder p (.append ref) :=
        addMember_eq_self ((howned₁.mem_iff ref).2 (by simp [horder₁]))
      obtain ⟨hs', howned', horder, -⟩ := ih (synced_mutateOrder hs p _) howned₁
      rw [hadded]
      exact ⟨hs', howned', by rw [horder, horder₁, if_neg hmem], by simp [hmem]⟩

theorem includeItem_refines (hs : h.Synced) (p : ι) (item : Ref U α) :
    Refines p (h.includeItem p item) (Progression.includeItem (h.orderOf p) item) := by
  unfold includeItem Progression.includeItem
  obtain ⟨hs', howned, horder⟩ := ensureSynced_spec hs p
  cases item.validateOrder with
  | error e => exact refines_refl hs p _
  | ok refs =>
    cases refs with
    | nil => exact refines_refl hs p _
    | cons ref rest =>
      obtain ⟨hs₁, howned₁, horder₁, hflag⟩ := includeRefs_spec hs' howned (ref :: rest)
      rw [horder] at horder₁ hflag
      exact ⟨synced_noteLen hs₁ howned₁, (orderOf_noteLen _ p).trans horder₁, hflag⟩

theorem exclude_refines (hs : h.Synced) (p : ι) (item : Ref U α) :
    Refines p (h.exclude p item) (Progression.exclude (h.orderOf p) item) := by
  unfold exclude Progression.exclude
  cases item.validateOrder with
  | error e => exact refines_refl hs p _
  | ok refs =>
    cases refs with
    | nil => exact refines_refl hs p _
    | cons ref rest =>
      have hreplace := refines_replaceAndRebuild hs p
        ((h.orderOf p).filter (· ∉ ref :: rest)) ()
      refine ⟨hreplace.synced, hreplace.order_eq, ?_⟩
      simp only [hreplace.order_eq]
      rfl

theorem append_refines (hs : h.Synced) (p : ι) (item : Ref U α) :
    Refines p (h.append p item) (Progression.append (h.orderOf p) item) := by
  unfold append Progression.append
  obtain ⟨hs', howned, horder⟩ := ensureSynced_spec hs p
  cases item.validateOrder with
  | error e => exact horder ▸ refines_refl hs' p _
  | ok refs => exact refines_mutate hs' howned (by rw [horder]; rfl) _

/-- Synchronising one progression shows in no other order. -/
theorem orderOf_ensureSynced (hs : h.Synced) (p q : ι) : (h.ensureSynced p).orderOf q = h.orderOf q := by
  by_cases hq : q = p
  · exact hq ▸ (ensureSynced_spec hs p).2.2
  · have hlt := hs.order_lt q
    have hwrap : (h.wrapOrder p).orderOf q = h.orderOf q := by
      unfold wrapOrder
      split
      · have hne : (h.progs q).order ≠ h.nextDeque := by omega
        simp [replaceOrder, setOrder, setProg, orderOf, hq, hne]
      · rfl
    unfold ensureSynced
    split
    · rfl
    · rw [rebuildMembers, orderOf, elems_rebind, ← hwrap]
      simp [rebind, setProg, orderOf, hq]

theorem extend_refines (hs : h.Synced) (p other : ι) :
    Refines p (h.extend p other, ())
      (Progression.extend (h.orderOf p) (h.orderOf other), ()) := by
  obtain ⟨hs', howned, horder⟩ := ensureSynced_spec hs p
  refine refines_mutate hs' howned ?_ ()
  rw [horder, orderOf_ensureSynced hs p other]
  rfl

theorem popleft_refines (hs : h.Synced) (p : ι) : Refines p (h.popleft p) (Progression.popleft (h.orderOf p)) := by
  unfold popleft
  obtain ⟨hs', howned, horder⟩ := ensureSynced_spec hs p
  cases hlist : h.orderOf p with
  | nil => exact ⟨hs, hlist, rfl⟩
  | cons uid rest => exact refines_mutate hs' howned (by rw [horder, hlist]; rfl) _

theorem remove_refines (hs : h.Synced) (p : ι) (item : Ref U α) :
    Refines p (h.remove p item) (Progression.remove (h.orderOf p) item) := by
  unfold remove Progression.remove
  obtain ⟨hs', howned, horder⟩ := ensureSynced_spec hs p
  cases item.validateOrder with
  | error e => exact refines_refl hs p _
  | ok refs =>
    cases refs with
    | nil => simpa [Progression.excludeRefs] using refines_refl hs p _
    | cons ref rest =>
      simp only [← horder, all_members_eq howned]
      split
      · exact refines_replaceAndRebuild hs' p _ _
      · exact refines_refl hs' p _

theorem insert_refines (hs : h.Synced) (p : ι) (index : Int) (item : Ref U α) :
    Refines p (h.insert p index item) (Progression.insert (h.orderOf p) index item) := by
  unfold insert Progression.insert
  obtain ⟨hs', howned, horder⟩ := ensureSynced_spec hs p
  cases item.validateOrder with
  | error e => exact refines_refl hs p _
  | ok refs =>
    have hloop : ∀ refs : List U,
        (refs.foldr (fun uid h ↦ h.mutateOrder p (.insert index uid)) (h.ensureSynced p)).Synced ∧
        (refs.foldr (fun uid h ↦ h.mutateOrder p (.insert index uid)) (h.ensureSynced p)).Owned p ∧
        (refs.foldr (fun uid h ↦ h.mutateOrder p (.insert index uid)) (h.ensureSynced p)).orderOf p =
          Progression.insertRefs (h.orderOf p) index refs := by
      intro refs
      induction refs with
      | nil => exact ⟨hs', howned, horder⟩
      | cons ref refs ih =>
        obtain ⟨hs₁, howned₁, horder₁⟩ := ih
        refine ⟨synced_mutateOrder hs₁ p _, owned_mutateOrder howned₁ _, ?_⟩
        rw [List.foldr_cons, orderOf_mutateOrder, horder₁]
        rfl
    obtain ⟨hs₁, howned₁, horder₁⟩ := hloop refs
    exact ⟨synced_noteLen hs₁ howned₁, (orderOf_noteLen _ p).trans horder₁, rfl⟩

/-- The last position, by either of the indices that `pop` takes for it. -/
theorem normIndex_last (h : index = -1 ∨ index = n - 1) : normIndex n index = if n = 0 then none else some (n - 1) := by
  unfold normIndex
  rcases h with rfl | rfl
  · split
    · omega
    · split <;> split <;> simp <;> omega
  · split
    · split <;> split <;> simp <;> omega
    · split <;> split <;> simp <;> omega

theorem pop_refines (hs : h.Synced) (p : ι) (index : Int) :
    Refines p (h.pop p index) (Progression.pop (h.orderOf p) index) := by
  unfold pop
  obtain ⟨hs', howned, horder⟩ := ensureSynced_spec hs p
  simp only [← horder]
  generalize h.ensureSynced p = g at hs' howned
  unfold Progression.pop
  split
  · next hlast =>
    have hnorm := normIndex_last hlast
    cases hget : (g.orderOf p).getLast? with
    | none =>
      have hnil : g.orderOf p = [] := List.getLast?_eq_none_iff.1 hget
      simp only [PySequence.getItem, hnil]
      simpa [hnil] using refines_refl hs' p (Except.error PyError.itemNotFoundError : Except _ U)
    | some uid =>
      obtain ⟨rest, hrest⟩ := List.getLast?_eq_some_iff.1 hget
      have hnorm' : normIndex (rest.length + 1) index = some rest.length := by
        simpa [hrest] using hnorm
      have happlied : applied .pop (g.orderOf p) = rest := by
        simp [applied, DequeOp.effect, hrest]
      have hitem : PySequence.getItem (g.orderOf p) index = some uid := by
        simp [PySequence.getItem, hrest, hnorm']
      have hdel : PySequence.delItem (g.orderOf p) index = some rest := by
        simp [PySequence.delItem, hrest, hnorm', List.eraseIdx_append_of_length_le]
      rw [hitem, hdel]
      exact refines_mutate hs' howned happlied _
  · split
    · next hzero =>
      subst hzero
      cases hlist : g.orderOf p with
      | nil =>
        simp only [List.head?_nil, PySequence.getItem]
        exact ⟨hs', hlist, rfl⟩
      | cons uid rest =>
        have happlied : applied .popleft (g.orderOf p) = rest := by
          simp [applied, DequeOp.effect, hlist]
        simp only [List.head?_cons]
        have hitem : PySequence.getItem (uid :: rest) 0 = some uid := by
          simp [PySequence.getItem, normIndex]
        have hdel : PySequence.delItem (uid :: rest) 0 = some rest := by
          simp [PySequence.delItem, normIndex]
        rw [hitem, hdel]
        exact refines_mutate hs' howned happlied _
    · cases hj : normIndex (g.orderOf p).length index with
      | none =>
        simp only [PySequence.getItem, hj, Option.bind_none]
        exact refines_refl hs' p _
      | some j =>
        have hlt := normIndex_lt hj
        simp only [PySequence.getItem, PySequence.delItem, hj, Option.bind_some,
          Option.map_some, List.getElem?_eq_getElem hlt]
        exact refines_mutate hs' howned (applied_delitem hj) _

theorem validateIndex_ok {length k : Nat} {allowEnd : Bool}
    (h : Progression.validateIndex length index allowEnd = .ok k) : k ≤ length ∧ (allowEnd = false → k < length) := by
  unfold Progression.validateIndex at h
  by_cases hempty : length = 0 ∧ allowEnd = false
  · rw [if_pos hempty] at h
    cases h
  · rw [if_neg hempty] at h
    simp only at h
    generalize (if index < 0 then (length : Int) + index else index) = i at h
    by_cases hrange : i < 0 ∨ (if allowEnd then (length : Int) else length - 1) < i
    · rw [if_pos hrange] at h
      cases h
    · rw [if_neg hrange, Except.ok.injEq] at h
      cases allowEnd with
      | false =>
        simp only [Bool.false_eq_true, if_false, not_or, not_lt] at hrange
        exact ⟨by omega, fun _ ↦ by omega⟩
      | true =>
        simp only [if_true, not_or, not_lt] at hrange
        exact ⟨by omega, fun hfalse ↦ by cases hfalse⟩

theorem normIndex_ofNat {k : Nat} (hk : k < n) : normIndex n k = some k := by
  simp [normIndex, hk]

theorem move_refines (hs : h.Synced) (p : ι) (fromIndex toIndex : Int) :
    Refines p (h.move p fromIndex toIndex)
      (Progression.move (h.orderOf p) fromIndex toIndex) := by
  unfold move Progression.move
  obtain ⟨hs', howned, horder⟩ := ensureSynced_spec hs p
  simp only [← horder]
  generalize h.ensureSynced p = g at hs' howned
  cases hsource : Progression.validateIndex (g.orderOf p).length fromIndex false with
  | error e => exact refines_refl hs' p _
  | ok source =>
    cases htarget : Progression.validateIndex (g.orderOf p).length toIndex true with
    | error e => exact refines_refl hs' p _
    | ok target =>
      have hlt : source < (g.orderOf p).length := (validateIndex_ok hsource).2 rfl
      have hle : target ≤ (g.orderOf p).length := (validateIndex_ok htarget).1
      simp only [List.getElem?_eq_getElem hlt]
      refine ⟨?_, ?_, rfl⟩
      · dsimp only
        exact synced_mutateOrder (synced_mutateOrder hs' p _) p _
      rw [orderOf_mutateOrder, orderOf_mutateOrder, applied_delitem (normIndex_ofNat hlt)]
      have hlength : ((g.orderOf p).eraseIdx source).length = (g.orderOf p).length - 1 :=
        List.length_eraseIdx_of_lt hlt
      have hpos : insertPos ((g.orderOf p).length - 1)
          (if source < target then target - 1 else target : Nat) =
            if source < target then target - 1 else target := by
        unfold insertPos
        split <;> split <;> omega
      simp only [applied, DequeOp.effect, Option.elim, insertAt, hlength, hpos]

theorem swap_refines (hs : h.Synced) (p : ι) (index1 index2 : Int) :
    Refines p (h.swap p index1 index2) (Progression.swap (h.orderOf p) index1 index2) := by
  unfold swap Progression.swap
  obtain ⟨hs', howned, horder⟩ := ensureSynced_spec hs p
  simp only [← horder]
  generalize h.ensureSynced p = g at hs' howned
  cases hi : Progression.validateIndex (g.orderOf p).length index1 false with
  | error e => exact refines_refl hs' p _
  | ok i =>
    cases hj : Progression.validateIndex (g.orderOf p).length index2 false with
    | error e => exact refines_refl hs' p _
    | ok j =>
      have hilt : i < (g.orderOf p).length := (validateIndex_ok hi).2 rfl
      have hjlt : j < (g.orderOf p).length := (validateIndex_ok hj).2 rfl
      simp only [List.getElem?_eq_getElem hilt, List.getElem?_eq_getElem hjlt]
      refine ⟨synced_mutateOrder (synced_mutateOrder hs' p _) p _, ?_, rfl⟩
      rw [orderOf_mutateOrder, orderOf_mutateOrder, applied_setitem (normIndex_ofNat hilt),
        applied_setitem (by rw [List.length_set]; exact normIndex_ofNat hjlt)]

theorem reverse_refines (hs : h.Synced) (p : ι) : Refines p (h.reverse p, ()) ((h.orderOf p).reverse, ()) := by
  obtain ⟨hs', howned, horder⟩ := ensureSynced_spec hs p
  refine ⟨?_, ?_, rfl⟩
  · dsimp only [reverse]
    exact synced_mutateOrder hs' p _
  simp only [reverse, orderOf_mutateOrder, horder]
  rfl

end SyncHeap

/-! ## Runs -/

/-- A step of a run: a method of a progression, a mutator called on any deque object there is, or an
assignment to `order` of a new deque or of one that exists. -/
inductive SyncOp (U : Type u) (ι : Type v) (α : Type w) where
  | contains (p : ι) (item : Ref U α)
  | setItem (p : ι) (key : Int) (value : Ref U α)
  | setSlice (p : ι) (key : Slice) (value : Ref U α)
  | delItem (p : ι) (key : Int)
  | delSlice (p : ι) (key : Slice)
  | clear (p : ι)
  | includeItem (p : ι) (item : Ref U α)
  | exclude (p : ι) (item : Ref U α)
  | append (p : ι) (item : Ref U α)
  | pop (p : ι) (index : Int)
  | popleft (p : ι)
  | remove (p : ι) (item : Ref U α)
  | extend (p other : ι)
  | insert (p : ι) (index : Int) (item : Ref U α)
  | move (p : ι) (fromIndex toIndex : Int)
  | swap (p : ι) (index1 index2 : Int)
  | reverse (p : ι)
  | mutate (d : Nat) (op : DequeOp U)
  | replaceOrder (p : ι) (elems : List U) (wrapped : Bool)
  | setOrder (p : ι) (d : Nat)

namespace SyncHeap

variable {U : Type u} {ι : Type v} {α : Type w} {τ : Type*} [Observable α U τ] [DecidableEq U]
  [DecidableEq ι]

def exec (h : SyncHeap U ι) : SyncOp U ι α → SyncHeap U ι
  | .contains p item => (h.contains p item).1
  | .setItem p key value => (h.setItem p key value).1
  | .setSlice p key value => (h.setSlice p key value).1
  | .delItem p key => (h.delItem p key).1
  | .delSlice p key => (h.delSlice p key).1
  | .clear p => h.clear p
  | .includeItem p item => (h.includeItem p item).1
  | .exclude p item => (h.exclude p item).1
  | .append p item => (h.append p item).1
  | .pop p index => (h.pop p index).1
  | .popleft p => (h.popleft p).1
  | .remove p item => (h.remove p item).1
  | .extend p other => h.extend p other
  | .insert p index item => (h.insert p index item).1
  | .move p fromIndex toIndex => (h.move p fromIndex toIndex).1
  | .swap p index1 index2 => (h.swap p index1 index2).1
  | .reverse p => h.reverse p
  | .mutate d op => if d < h.nextDeque then h.mutate d op else h
  | .replaceOrder p elems wrapped => h.replaceOrder p elems wrapped
  | .setOrder p d => if d < h.nextDeque then h.setOrder p d else h

theorem synced_exec {h : SyncHeap U ι} (hs : h.Synced) (op : SyncOp U ι α) : (h.exec op).Synced := by
  cases op with
  | contains p item => exact (contains_refines hs p item).synced
  | setItem p key value => exact (setItem_refines hs p key value).synced
  | setSlice p key value => exact (setSlice_refines hs p key value).synced
  | delItem p key => exact (delItem_refines hs p key).synced
  | delSlice p key => exact (delSlice_refines hs p key).synced
  | clear p => exact (clear_refines hs p).synced
  | includeItem p item => exact (includeItem_refines hs p item).synced
  | exclude p item => exact (exclude_refines hs p item).synced
  | append p item => exact (append_refines hs p item).synced
  | pop p index => exact (pop_refines hs p index).synced
  | popleft p => exact (popleft_refines hs p).synced
  | remove p item => exact (remove_refines hs p item).synced
  | extend p other => exact (extend_refines hs p other).synced
  | insert p index item => exact (insert_refines hs p index item).synced
  | move p fromIndex toIndex => exact (move_refines hs p fromIndex toIndex).synced
  | swap p index1 index2 => exact (swap_refines hs p index1 index2).synced
  | reverse p => exact (reverse_refines hs p).synced
  | mutate d op =>
    simp only [exec]
    split
    · exact synced_mutate hs d op
    · exact hs
  | replaceOrder p elems wrapped => exact synced_replaceOrder hs p elems wrapped
  | setOrder p d =>
    simp only [exec]
    split
    · next hd => exact synced_setOrder hs p hd
    · exact hs

/-- Progressions just constructed from the given orders: each has its own deque and its own set. -/
def constructed {n : Nat} (orders : Fin n → List U) : SyncHeap U (Fin n) where
  deques d :=
    if hd : d < n then { elems := orders ⟨d, hd⟩, binding := .members (some d) }
    else { elems := [], binding := .plain }
  sets s := if hs : s < n then (orders ⟨s, hs⟩).toFinset else ∅
  nextDeque := n
  nextSet := n
  progs p := { order := p, members := p, orderLen := (orders p).length }

theorem bound_constructed {n : Nat} {orders : Fin n → List U} {d s : Nat}
    (hb : (constructed orders).Bound d s) : d < n ∧ d = s := by
  unfold Bound constructed at hb
  simp only at hb
  split at hb
  · next hd =>
    simp only [Binding.members.injEq, Option.some.injEq] at hb
    exact ⟨hd, hb⟩
  · cases hb

theorem synced_constructed {n : Nat} (orders : Fin n → List U) : (constructed orders).Synced := by
  refine ⟨fun p ↦ p.isLt, fun p ↦ p.isLt, fun d s hb ↦ ?_, fun d d' s hb hb' ↦ ?_,
    fun p q heq ↦ Fin.ext heq, fun p d hb ↦ ?_⟩
  · obtain ⟨hd, rfl⟩ := bound_constructed hb
    exact hd
  · rw [(bound_constructed hb).2, (bound_constructed hb').2]
  · obtain ⟨hd, hds⟩ := bound_constructed hb
    have hp : d = (p : Nat) := hds
    subst hp
    simp [membersOf, constructed]

/-- In every state of every run over finitely many progressions, membership is occurrence in the
order. -/
theorem contains_iff_mem_order {n : Nat} (orders : Fin n → List U)
    (ops : List (SyncOp U (Fin n) α)) (p : Fin n) (u : U) :
    ((ops.foldl exec (constructed orders)).contains p (.uuid u : Ref U α)).2 = true ↔
      u ∈ (ops.foldl exec (constructed orders)).orderOf p := by
  have hs : (ops.foldl exec (constructed orders)).Synced :=
    Transition.invariant_foldl (I := Synced) (fun h op hs ↦ synced_exec hs op) (synced_constructed orders) ops
  rw [(contains_refines hs p (.uuid u : Ref U α)).result_eq]
  simp [Progression.contains]

end SyncHeap

end Lionagi.Protocols
