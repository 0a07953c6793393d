import Lionagi.Protocols.PileInvariant

/-!
# Calls of a pile with one item

What `insert`, `include` and `exclude` make of a pile when they are called with a single item that its types
admit.
-/

universe u v w

namespace Lionagi.Protocols.Pile

open PySequence

variable {U : Type u} {α : Type v} {τ : Type w} [DecidableEq U]

/-- The pile without the item of an identifier. -/
def without (p : Pile U α τ) (uid : U) : Pile U α τ :=
  { p.withOrder (p.order.filter (· ≠ uid)) with collections := p.collections.erase uid }

@[simp] theorem order_without (p : Pile U α τ) (uid : U) :
    (p.without uid).order = p.order.filter (· ≠ uid) := rfl

@[simp] theorem collections_without (p : Pile U α τ) (uid : U) :
    (p.without uid).collections = p.collections.erase uid := rfl

variable [Observable α U τ] {p : Pile U α τ} {a : α}

/-- The pile with another item in it, in an order of one's own. -/
def withItem (p : Pile U α τ) (order : List U) (a : α) : Pile U α τ :=
  { p.withOrder order with collections := p.collections.set (Observable.id a) a }

@[simp] theorem order_withItem (order : List U) : (p.withItem order a).order = order := rfl

@[simp] theorem collections_withItem (order : List U) :
    (p.withItem order a).collections = p.collections.set (Observable.id a) a := rfl

theorem contains_eq {r : Ref U α} {uid : U} (hid : r.validateOrder = .ok [uid]) :
    p.contains r = decide (uid ∈ p.order) := by
  rw [Bool.eq_iff_iff, show p.contains r = true ↔ _ from Progression.contains_iff hid, List.forall_mem_singleton,
    decide_eq_true_eq]

/-! ## The calls -/

variable [DecidableEq τ]

/-- The types of the pile admit the item. -/
def Admits (p : Pile U α τ) (a : α) : Prop := admitItem p.itemType p.strictType (.item a : Ref U α) = .ok a

theorem validateCollections_of_admits (h : p.Admits a) :
    validateCollections (.item a) p.itemType p.strictType =
      .ok (OrderedDict.empty.set (Observable.id a) a) := by
  have hone : admitAll p.itemType p.strictType [(.item a : Ref U α)] OrderedDict.empty =
      .ok (OrderedDict.empty.set (Observable.id a) a) := by
    rw [admitAll, show admitItem p.itemType p.strictType (.item a : Ref U α) = .ok a from h]
    rfl
  exact hone

theorem insert_of_admits (h : p.Admits a) (index : Int) : p.insert index (.item a) =
    if Observable.id a ∈ p.order then (p, .error .itemExistsError)
    else (p.withItem (insertAt p.order index (Observable.id a)) a, .ok ()) := by
  have hkeys : (OrderedDict.empty.set (Observable.id a) a : OrderedDict U α).keys = [Observable.id a] := rfl
  unfold insert
  rw [validateCollections_of_admits h]
  simp only [hkeys, List.any_cons, List.any_nil, Bool.or_false, decide_eq_true_eq, Progression.insert,
    validateOrder_ofIds]
  rfl

theorem includeItem_of_admits (h : p.Admits a) (hfresh : Observable.id a ∉ p.order) :
    p.includeItem (.item a) = (p.withItem (p.order ++ [Observable.id a]) a, .ok ()) := by
  have hkeys : (OrderedDict.empty.set (Observable.id a) a : OrderedDict U α).keys = [Observable.id a] := rfl
  have horder : (Progression.includeItem p.order (.ofIds [Observable.id a] : Ref U α)).1 =
      p.order ++ [Observable.id a] := by
    rw [Progression.includeItem_of_validate (validateOrder_ofIds _), Progression.includeRefs, List.foldl_cons, if_neg hfresh]
    rfl
  unfold includeItem
  rw [validateCollections_of_admits h]
  simp only [hkeys, horder]
  rfl

/-- Excluding one reference takes its item out, when it is there. -/
theorem exclude_one (h : p.Agrees) {r : Ref U α} {uid : U} (hlist : r.toListType = [r])
    (hid : r.validateOrder = .ok [uid]) : p.exclude r = if uid ∈ p.order then (p.without uid, .ok ()) else (p, .ok ()) := by
  unfold exclude
  rw [hlist, List.filter_cons, List.filter_nil, contains_eq hid]
  by_cases hmem : uid ∈ p.order
  · obtain ⟨a, ha⟩ := (p.collections.mem_iff_exists_get? uid).1 ((h.mem_iff uid).1 hmem)
    have horders : (Ref.list [r]).validateOrder = .ok [uid] := by
      rw [Ref.validateOrder_list, Ref.validateOrders_cons, hid]
      rfl
    have hpop : popEach p.collections [uid] = (p.collections.erase uid, .ok [a]) := by
      simp only [popEach, ha]
    have hkept : Progression.excludeRefs p.order [uid] = p.order.filter (· ≠ uid) := by
      simp only [Progression.excludeRefs, List.mem_singleton]
    simp only [hmem, decide_true, if_true, popRef, horders, popKeys, hpop,
      Progression.exclude_of_validate (validateOrder_ofIds [uid]), hkept, wrapPopped]
    rfl
  · simp only [hmem, decide_false, Bool.false_eq_true, if_false]

/-! ## Agreement -/

theorem agrees_withItem (h : p.Agrees) {order : List U} (hnodup : order.Nodup)
    (hmem : ∀ u, u ∈ order ↔ u = Observable.id a ∨ u ∈ p.order) : (p.withItem order a).Agrees where
  nodup := hnodup
  mem_iff u := by
    rw [order_withItem, collections_withItem, OrderedDict.mem_set, hmem, h.mem_iff]
  own_ids := ownIds_set h.own_ids rfl

omit [DecidableEq τ] in
theorem agrees_without (h : p.Agrees) (uid : U) : (p.without uid).Agrees where
  nodup := h.nodup.filter _
  mem_iff u := by
    rw [order_without, collections_without, OrderedDict.mem_erase, List.mem_filter, h.mem_iff, decide_eq_true_eq]
    exact and_comm
  own_ids := by
    intro u b hget
    rw [collections_without, OrderedDict.get?_erase] at hget
    split at hget
    · cases hget
    · exact h.own_ids u b hget

end Lionagi.Protocols.Pile
