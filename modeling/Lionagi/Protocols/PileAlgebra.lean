import Lionagi.Protocols.PileAtomic
import Lionagi.Protocols.PileItem
import Lionagi.Protocols.Flow

/-!
# The set operators of piles

Union and intersection compare items by their identifiers. The symmetric difference decides with
Python's `==` which items to leave out, so an item whose `==` is not that of identifiers can be
dropped or kept by mistake. The laws of the six operators hold together exactly where the items
concerned compare as their identifiers do.
-/

universe u v w

set_option linter.unusedSectionVars false

namespace Lionagi.Protocols

variable {U : Type u} {α : Type v} {τ : Type w} [Observable α U τ] [DecidableEq U] [DecidableEq τ]

namespace Progression

/-- Distinct references are appended where they are not there yet. -/
theorem includeRefs_of_nodup {order refs : List U} (h : refs.Nodup) :
    includeRefs order refs = order ++ refs.filter (· ∉ order) := by
  induction refs generalizing order with
  | nil => exact (List.append_nil order).symm
  | cons ref refs ih =>
    have hstep : includeRefs order (ref :: refs) =
        includeRefs (if ref ∈ order then order else order ++ [ref]) refs := rfl
    rw [List.nodup_cons] at h
    rw [hstep, ih h.2]
    by_cases hmem : ref ∈ order
    · rw [if_pos hmem, List.filter_cons, if_neg]
      rw [decide_eq_true_eq]
      exact not_not_intro hmem
    · rw [if_neg hmem, List.filter_cons, if_pos (decide_eq_true hmem), List.append_assoc,
        List.singleton_append]
      congr 2
      apply List.filter_congr
      intro u hu
      have hne : u ≠ ref := fun heq ↦ h.1 (heq ▸ hu)
      rw [decide_eq_decide, List.mem_append, List.mem_singleton, or_iff_left hne]

end Progression

namespace Pile

/-! ## Dictionaries of items -/

variable {d : OrderedDict U α} {items : List α}

theorem keys_of_entries (h : d.entries = items.map fun a ↦ (Observable.id a, a)) :
    d.keys = items.map Observable.id := by
  rw [OrderedDict.keys, h, List.map_map]
  rfl

theorem get?_of_entries (h : d.entries = items.map fun a ↦ (Observable.id a, a)) (u : U) (a : α) :
    d.get? u = some a ↔ a ∈ items ∧ Observable.id a = u := by
  rw [OrderedDict.get?_eq_some_iff, h, List.mem_map]
  constructor
  · rintro ⟨b, hb, heq⟩
    cases heq
    exact ⟨hb, rfl⟩
  · rintro ⟨ha, rfl⟩
    exact ⟨a, ha, rfl⟩

theorem mem_lookupAll (h : OwnIds d) {keys : List U} (hitems : lookupAll d keys = .ok items) (a : α)
    :
    a ∈ items ↔ Observable.id a ∈ keys ∧ d.get? (Observable.id a) = some a := by
  induction keys generalizing items with
  | nil =>
    cases hitems
    exact ⟨fun hmem ↦ absurd hmem List.not_mem_nil, fun hmem ↦ absurd hmem.1 List.not_mem_nil⟩
  | cons key keys ih =>
    rw [lookupAll] at hitems
    split at hitems
    · cases hitems
    · next b hb =>
      split at hitems
      · cases hitems
      · next rest hrest =>
        cases hitems
        rw [List.mem_cons, List.mem_cons, ih hrest]
        constructor
        · rintro (rfl | ⟨hmem, hget⟩)
          · rw [h key a hb]
            exact ⟨.inl rfl, hb⟩
          · exact ⟨.inr hmem, hget⟩
        · rintro ⟨hkey | hmem, hget⟩
          · rw [hkey, hb, Option.some.injEq] at hget
            exact .inl hget.symm
          · exact .inr ⟨hmem, hget⟩

namespace Agrees

variable {p : Pile U α τ} {items : List α}

theorem ids_values (h : p.Agrees) (hitems : p.values = .ok items) :
    items.map Observable.id = p.order :=
  ids_lookupAll h.own_ids hitems

theorem mem_values (h : p.Agrees) (hitems : p.values = .ok items) (a : α) :
    a ∈ items ↔ p.collections.get? (Observable.id a) = some a := by
  rw [mem_lookupAll h.own_ids hitems]
  refine and_iff_right_of_imp fun hget ↦ ?_
  rw [h.mem_iff]
  exact OrderedDict.mem_of_get? hget

/-- A dictionary of the items of a pile has the objects of the pile. -/
theorem get?_values (h : p.Agrees) (hitems : p.values = .ok items)
    (hd : d.entries = items.map fun a ↦ (Observable.id a, a)) (u : U) :
    d.get? u = p.collections.get? u := by
  apply Option.ext
  intro a
  rw [get?_of_entries hd, h.mem_values hitems]
  constructor
  · rintro ⟨hget, rfl⟩
    exact hget
  · intro hget
    have hid := h.own_ids u a hget
    rw [hid]
    exact ⟨hget, rfl⟩

end Agrees

/-- Filtering objects by their identifiers is filtering the identifiers, on distinct ones only. -/
theorem ids_filter_eq_iff (h : (items.map (Observable.id (U := U))).Nodup) (keep : α → Bool)
    (keepId : U → Bool) :
    (items.filter keep).map Observable.id = (items.map Observable.id).filter keepId ↔
      ∀ a ∈ items, keep a = keepId (Observable.id a) := by
  constructor
  · intro heq a ha
    have hkept : Observable.id a ∈ (items.filter keep).map (Observable.id (U := U)) ↔
        keep a = true := by
      rw [List.mem_map]
      constructor
      · rintro ⟨b, hb, hid⟩
        obtain ⟨hmem, hkeep⟩ := List.mem_filter.1 hb
        rw [← List.inj_on_of_nodup_map h hmem ha hid]
        exact hkeep
      · intro hkeep
        exact ⟨a, List.mem_filter.2 ⟨ha, hkeep⟩, rfl⟩
    rw [Bool.eq_iff_iff, ← hkept, heq, List.mem_filter]
    exact and_iff_right (List.mem_map_of_mem ha)
  · intro hall
    rw [List.filter_map, List.filter_congr hall]
    rfl

theorem contains_item (p : Pile U α τ) (a : α) :
    p.contains (.item a) = decide (Observable.id a ∈ p.order) :=
  contains_eq rfl

/-! ## The building blocks on several items -/

variable {p x : Pile U α τ}

theorem includeItem_items (hadmits : ∀ a ∈ items, p.Admits a)
    (hnodup : (items.map (Observable.id (U := U))).Nodup) :
    ∃ d, d.entries = items.map (fun a ↦ (Observable.id a, a)) ∧
      p.includeItem (.ofItems items) =
        ({ p.withOrder (p.order ++ (items.map Observable.id).filter (· ∉ p.order)) with
          collections := p.collections.update d }, .ok ()) := by
  obtain ⟨d, hd, hentries⟩ := validateCollections_items hadmits hnodup
  have horder : (Progression.includeItem p.order (.ofIds d.keys : Ref U α)).1 =
      p.order ++ (items.map Observable.id).filter (· ∉ p.order) := by
    rw [Progression.includeItem_of_validate (validateOrder_ofIds d.keys), keys_of_entries hentries,
      Progression.includeRefs_of_nodup hnodup]
  refine ⟨d, hentries, ?_⟩
  simp only [includeItem, hd, horder]

theorem new_items (hadmits : ∀ a ∈ items, x.Admits a)
    (hnodup : (items.map (Observable.id (U := U))).Nodup) (progressionId : U) :
    ∃ d, d.entries = items.map (fun a ↦ (Observable.id a, a)) ∧
      new (.ofItems items) x.itemType none x.strictType progressionId =
        .ok ⟨d, x.itemType, ⟨progressionId, items.map Observable.id, none⟩, x.strictType⟩ := by
  obtain ⟨d, hd, hentries⟩ := validateCollections_items hadmits hnodup
  refine ⟨d, hentries, ?_⟩
  unfold new
  simp only [hd, validateProgression, keys_of_entries hentries]

/-- A dictionary may be given its own keys as the order. -/
theorem validateProgression_keys (d : OrderedDict U α) :
    validateProgression (some d.keys) d = .ok d.keys := by
  have hcheck : checkOrder d.keys d = .ok d.keys := by
    unfold checkOrder
    rw [d.keys_nodup.dedup, if_neg (not_not_intro rfl), if_neg (not_not_intro rfl), if_pos]
    rw [List.all_eq_true]
    exact fun u hu ↦ decide_eq_true hu
  cases hkeys : d.keys with
  | nil => rw [validateProgression, hkeys]
  | cons key keys =>
    rw [hkeys] at hcheck
    exact hcheck

theorem exclude_shared_eq (h : p.Agrees)
    (hnodup : ((p.shared items).map (Observable.id (U := U))).Nodup) :
    ∃ q : Pile U α τ, p.exclude (.ofItems (p.shared items)) = (q, .ok ()) ∧
      q.order = p.order.filter (· ∉ (p.shared items).map Observable.id) ∧
      (∀ u, q.collections.get? u =
        if u ∈ (p.shared items).map Observable.id then none else p.collections.get? u) ∧
      q.itemType = p.itemType ∧ q.strictType = p.strictType := by
  have hok := (exclude_shared_ok_iff h items).2 hnodup
  obtain ⟨htype, hstrict⟩ := exclude_shared_fields p items
  have hfields : (p.exclude (.ofItems (p.shared items))).1.order =
        p.order.filter (· ∉ (p.shared items).map Observable.id) ∧
      ∀ u, (p.exclude (.ofItems (p.shared items))).1.collections.get? u =
        if u ∈ (p.shared items).map Observable.id then none else p.collections.get? u := by
    rw [exclude_shared]
    split
    · next hnil =>
      rw [hnil]
      refine ⟨?_, fun u ↦ ?_⟩
      · exact (List.filter_eq_self.2 fun u _ ↦ decide_eq_true List.not_mem_nil).symm
      · exact (if_neg List.not_mem_nil).symm
    · simp only [popRef_fst (validateOrder_ofItems (p.shared items))]
      refine ⟨rfl, fun u ↦ ?_⟩
      rw [get?_popEach, poppedKeys_eq hnodup fun u hu ↦ (h.mem_iff u).1 (shared_ids_mem p items u hu)]
  exact ⟨_, Prod.ext rfl hok, hfields.1, hfields.2, htype, hstrict⟩

/-! ## The laws -/

/-- The in-place form succeeds with the identifiers asked for and the fresh form gives a pile with
the same ones and the same object under each. -/
def Computes (fresh : Except PyError (Pile U α τ)) (inPlace : Pile U α τ × Except PyError Unit)
    (ids : List U) : Prop :=
  ∃ result, fresh = .ok result ∧ result.order = ids ∧ inPlace.2 = .ok () ∧ inPlace.1.order = ids ∧
    ∀ u, inPlace.1.collections.get? u = result.collections.get? u

/-- Each operator computes its law, in both forms. -/
structure SetAlgebra (x y : Pile U α τ) (progressionId : U) : Prop where
  union : Computes (x.or (some y) progressionId) (x.ior (some y))
    (x.order ++ y.order.filter (· ∉ x.order))
  inter : Computes (x.and (some y) progressionId) (x.iand (some y)) (x.order.filter (· ∈ y.order))
  symmDiff : Computes (x.xor (some y) progressionId) (x.ixor (some y))
    (x.order.filter (· ∉ y.order) ++ y.order.filter (· ∉ x.order))

/-- The item equals one of `y` that `x` has by identifier. -/
def MatchesShared (x y : Pile U α τ) (i : α) : Prop :=
  ∃ t, y.collections.get? (Observable.id t) = some t ∧ Observable.id t ∈ x.order ∧
    Observable.eq t i = true

/-- An item of either pile equals a shared item of `y` exactly when its identifier is shared. -/
def EqualAsIds (x y : Pile U α τ) : Prop :=
  (∀ i, x.collections.get? (Observable.id i) = some i →
    (x.MatchesShared y i ↔ Observable.id i ∈ y.order)) ∧
    ∀ i, y.collections.get? (Observable.id i) = some i →
      (x.MatchesShared y i ↔ Observable.id i ∈ x.order)

section Laws

variable {x y : Pile U α τ} (hx : x.Agrees) (hy : y.Agrees)
  (hadmits : ∀ u a, x.collections.get? u = some a ∨ y.collections.get? u = some a → x.Admits a)

include hx hy hadmits

variable (progressionId : U)

theorem computes_union :
    Computes (x.or (some y) progressionId) (x.ior (some y))
      (x.order ++ y.order.filter (· ∉ x.order)) := by
  obtain ⟨own, hown⟩ := hx.values_ok
  obtain ⟨items, hitems⟩ := hy.values_ok
  have hownIds := hx.ids_values hown
  have hitemsIds := hy.ids_values hitems
  have hownAdmit : ∀ a ∈ own, x.Admits a := fun a ha ↦
    hadmits _ a (.inl ((hx.mem_values hown a).1 ha))
  have hitemsAdmit : ∀ a ∈ items, x.Admits a := fun a ha ↦
    hadmits _ a (.inr ((hy.mem_values hitems a).1 ha))
  obtain ⟨c, hc, hcentries⟩ := validateCollections_items hownAdmit (hownIds ▸ hx.nodup)
  obtain ⟨d, hd, hdentries⟩ := validateCollections_items hitemsAdmit (hitemsIds ▸ hy.nodup)
  have hckeys : c.keys = x.order := (keys_of_entries hcentries).trans hownIds
  have hdvalues : d.values = items := by
    rw [OrderedDict.values, hdentries, List.map_map]
    exact List.map_id items
  let start : Pile U α τ := ⟨c, x.itemType, ⟨progressionId, x.order, none⟩, x.strictType⟩
  have hnew : new (.ofItems own) x.itemType (some x.order) x.strictType progressionId =
      .ok start := by
    have horder := validateProgression_keys c
    rw [hckeys] at horder
    simp only [new, hc, horder]
    rfl
  obtain ⟨dx, hdx, hincludeX⟩ := includeItem_items (p := x) hitemsAdmit (hitemsIds ▸ hy.nodup)
  obtain ⟨ds, hds, hincludeS⟩ := includeItem_items (p := start) hitemsAdmit (hitemsIds ▸ hy.nodup)
  have hor : x.or (some y) progressionId =
      .ok { start.withOrder (start.order ++ (items.map Observable.id).filter (· ∉ start.order)) with
        collections := start.collections.update ds } := by
    simp only [Pile.or, hown, hnew, hitems, hincludeS]
  have hior : x.ior (some y) =
      ({ x.withOrder (x.order ++ (items.map Observable.id).filter (· ∉ x.order)) with
        collections := x.collections.update dx }, .ok ()) := by
    simp only [ior, hitems, hd, hdvalues, hincludeX]
  refine ⟨_, hor, ?_, congrArg Prod.snd hior, ?_, fun u ↦ ?_⟩
  · rw [← hitemsIds]
    rfl
  · rw [hior, ← hitemsIds]
    rfl
  · rw [hior]
    change (x.collections.update dx).get? u = (c.update ds).get? u
    rw [OrderedDict.get?_update_eq, OrderedDict.get?_update_eq, hy.get?_values hitems hdx,
      hy.get?_values hitems hds, hx.get?_values hown hcentries]

theorem computes_inter :
    Computes (x.and (some y) progressionId) (x.iand (some y))
      (x.order.filter (· ∈ y.order)) := by
  obtain ⟨own, hown⟩ := hx.values_ok
  have hownIds := hx.ids_values hown
  have hadmitKept : ∀ a ∈ own.filter (fun i ↦ y.contains (.item i)), x.Admits a := fun a ha ↦
    hadmits _ a (.inl ((hx.mem_values hown a).1 (List.mem_filter.1 ha).1))
  have hkeptIds : (own.filter fun i ↦ y.contains (.item i)).map Observable.id =
      x.order.filter (· ∈ y.order) := by
    rw [← hownIds, ids_filter_eq_iff (hownIds ▸ hx.nodup)]
    intro a ha
    rw [contains_item]
  have hdropped : x.shared (own.filter fun i ↦ !y.contains (.item i)) =
      own.filter fun i ↦ !y.contains (.item i) := by
    apply List.filter_eq_self.2
    intro a ha
    rw [contains_item, decide_eq_true_eq, ← hownIds]
    exact List.mem_map_of_mem (List.mem_filter.1 ha).1
  have hdroppedIds : (own.filter fun i ↦ !y.contains (.item i)).map Observable.id =
      x.order.filter (· ∉ y.order) := by
    rw [← hownIds, ids_filter_eq_iff (hownIds ▸ hx.nodup)]
    intro a ha
    rw [contains_item, decide_not]
  obtain ⟨d, hentries, hnew⟩ := new_items hadmitKept
    (hkeptIds ▸ hx.nodup.filter _) progressionId
  have hdroppedNodup : ((x.shared (own.filter fun i ↦ !y.contains (.item i))).map
      (Observable.id (U := U))).Nodup := by
    rw [hdropped, hdroppedIds]
    exact hx.nodup.filter _
  obtain ⟨q, hexclude, hqorder, hqget, -, -⟩ := exclude_shared_eq hx hdroppedNodup
  rw [hdropped, hdroppedIds] at hqorder hqget
  rw [hdropped] at hexclude
  have hand : x.and (some y) progressionId = new (.ofItems (own.filter fun i ↦
      y.contains (.item i))) x.itemType none x.strictType progressionId := by
    simp only [Pile.and, hown]
  rw [hnew] at hand
  have hiand : x.iand (some y) = (q, .ok ()) := by
    simp only [iand, hown]
    exact hexclude
  refine ⟨_, hand, hkeptIds, congrArg Prod.snd hiand, ?_, fun u ↦ ?_⟩
  · rw [hiand, hqorder]
    apply List.filter_congr
    intro u hu
    rw [decide_eq_decide, List.mem_filter, decide_eq_true_eq]
    tauto
  · rw [hiand]
    change q.collections.get? u = d.get? u
    have hkept (a : α) : a ∈ own.filter (fun i ↦ y.contains (.item i)) ↔
        x.collections.get? (Observable.id a) = some a ∧ Observable.id a ∈ y.order := by
      rw [List.mem_filter, contains_item, decide_eq_true_eq, hx.mem_values hown]
    apply Option.ext
    intro a
    rw [hqget, get?_of_entries hentries, hkept]
    constructor
    · intro hget
      split at hget
      · cases hget
      · next hkept =>
        have hid := hx.own_ids u a hget
        have hu : u ∈ x.order := (hx.mem_iff u).2 (OrderedDict.mem_of_get? hget)
        rw [List.mem_filter, decide_eq_true_eq, not_and, not_not] at hkept
        rw [hid]
        exact ⟨⟨hget, hkept hu⟩, rfl⟩
    · rintro ⟨⟨hget, hmem⟩, rfl⟩
      rw [if_neg, hget]
      rw [List.mem_filter, decide_eq_true_eq]
      exact fun hdropped ↦ hdropped.2 hmem

omit hx hadmits in
theorem any_shared_iff (hitems : y.values = .ok items) (i : α) :
    ((x.shared items).any fun t ↦ Observable.eq t i) = true ↔ x.MatchesShared y i := by
  rw [List.any_eq_true]
  constructor
  · rintro ⟨t, ht, heq⟩
    obtain ⟨hmem, hcontains⟩ := List.mem_filter.1 ht
    rw [contains_item, decide_eq_true_eq] at hcontains
    exact ⟨t, (hy.mem_values hitems t).1 hmem, hcontains, heq⟩
  · rintro ⟨t, hget, hmem, heq⟩
    refine ⟨t, List.mem_filter.2 ⟨(hy.mem_values hitems t).2 hget, ?_⟩, heq⟩
    rw [contains_item]
    exact decide_eq_true hmem

omit hx hadmits in
/-- What `^` takes from `y` has identifiers that `x` has not. -/
theorem unshared_ids (hitems : y.values = .ok items) :
    ((x.unshared items).map (Observable.id (U := U))).Nodup ∧
      ∀ u ∈ (x.unshared items).map (Observable.id (U := U)), u ∉ x.order := by
  have hids := hy.ids_values hitems
  refine ⟨(hids ▸ hy.nodup : (items.map (Observable.id (U := U))).Nodup).sublist
    (List.filter_sublist.map _), ?_⟩
  intro u hu hmem
  obtain ⟨a, ha, rfl⟩ := List.mem_map.1 hu
  obtain ⟨haitems, hnot⟩ := List.mem_filter.1 ha
  rw [Bool.not_eq_true', ← Bool.not_eq_true, any_shared_iff hy hitems] at hnot
  exact hnot ⟨a, (hy.mem_values hitems a).1 haitems, hmem, Observable.eq_refl a⟩

omit hx in
theorem unshared_admits (hitems : y.values = .ok items) :
    ∀ a ∈ x.unshared items, x.Admits a := fun a ha ↦
  hadmits _ a (.inr ((hy.mem_values hitems a).1 (List.mem_filter.1 ha).1))

/-- What `^` keeps of `x`. -/
def kept (p : Pile U α τ) (own items : List α) : List α :=
  own.filter fun i ↦ !(p.shared items).any fun t ↦ Observable.eq t i

theorem xor_eq {own : List α} (hown : x.values = .ok own) (hitems : y.values = .ok items)
    (progressionId : U) :
    ∃ d, d.entries = (x.kept own items ++ x.unshared items).map (fun a ↦ (Observable.id a, a)) ∧
      x.xor (some y) progressionId = .ok ⟨d, x.itemType, ⟨progressionId,
        (x.kept own items ++ x.unshared items).map Observable.id, none⟩, x.strictType⟩ := by
  have hownIds := hx.ids_values hown
  obtain ⟨hrestNodup, hrestNew⟩ := unshared_ids (x := x) hy hitems
  have hkeptSub : ((x.kept own items).map (Observable.id (U := U))).Sublist x.order :=
    hownIds ▸ List.filter_sublist.map _
  have hnodup : ((x.kept own items ++ x.unshared items).map (Observable.id (U := U))).Nodup := by
    rw [List.map_append]
    exact List.nodup_append.2 ⟨hx.nodup.sublist hkeptSub, hrestNodup, fun u hu v hv heq ↦
      hrestNew v hv (heq ▸ hkeptSub.subset hu)⟩
  have hvalues : ∀ a ∈ x.kept own items ++ x.unshared items, x.Admits a := by
    intro a ha
    rcases List.mem_append.1 ha with ha | ha
    · exact hadmits _ a (.inl ((hx.mem_values hown a).1 (List.mem_filter.1 ha).1))
    · exact unshared_admits hy hadmits hitems a ha
  obtain ⟨d, hentries, hnew⟩ := new_items hvalues hnodup progressionId
  refine ⟨d, hentries, ?_⟩
  simp only [Pile.xor, hitems, hown]
  exact hnew

theorem ixor_eq (hitems : y.values = .ok items) :
    ∃ q, x.ixor (some y) = (q, .ok ()) ∧
      q.order = x.order.filter (· ∉ y.order) ++ (x.unshared items).map Observable.id ∧
      ∀ u a, q.collections.get? u = some a ↔ (a ∈ x.unshared items ∨
        x.collections.get? (Observable.id a) = some a ∧ Observable.id a ∉ y.order) ∧
          Observable.id a = u := by
  have hitemsIds := hy.ids_values hitems
  obtain ⟨hrestNodup, hrestNew⟩ := unshared_ids (x := x) hy hitems
  have hshared (u : U) (hu : u ∈ x.order) :
      u ∈ (x.shared items).map Observable.id ↔ u ∈ y.order := by
    rw [← hitemsIds]
    constructor
    · intro hmem
      exact (List.filter_sublist.map _).subset hmem
    · intro hmem
      obtain ⟨a, ha, rfl⟩ := List.mem_map.1 hmem
      refine List.mem_map_of_mem (List.mem_filter.2 ⟨ha, ?_⟩)
      rw [contains_item]
      exact decide_eq_true hu
  obtain ⟨q, hexclude, hqorder, hqget, hqtype, hqstrict⟩ := exclude_shared_eq hx
    ((hitemsIds ▸ hy.nodup : (items.map (Observable.id (U := U))).Nodup).sublist
      (List.filter_sublist.map _))
  have hqorder' : q.order = x.order.filter (· ∉ y.order) := by
    rw [hqorder]
    apply List.filter_congr
    intro u hu
    rw [decide_eq_decide, hshared u hu]
  have hadmitRest : ∀ a ∈ x.unshared items, q.Admits a := by
    intro a ha
    rw [Admits, hqtype, hqstrict]
    exact unshared_admits hy hadmits hitems a ha
  obtain ⟨d, hentries, hinclude⟩ := includeItem_items hadmitRest hrestNodup
  have hixor : x.ixor (some y) = q.includeItem (.ofItems (x.unshared items)) := by
    simp only [ixor, hitems]
    rw [show items.filter (fun i ↦ x.contains (.item i)) = x.shared items from rfl, hexclude]
    rfl
  have hfresh : ((x.unshared items).map Observable.id).filter (· ∉ q.order) =
      (x.unshared items).map Observable.id := by
    apply List.filter_eq_self.2
    intro u hu
    rw [decide_eq_true_eq, hqorder', List.mem_filter]
    exact fun hmem ↦ hrestNew u hu hmem.1
  rw [hfresh, hqorder'] at hinclude
  refine ⟨_, hixor.trans hinclude, rfl, fun u a ↦ ?_⟩
  change (q.collections.update d).get? u = some a ↔ _
  rw [OrderedDict.get?_update_eq, Option.or_eq_some_iff, get?_of_entries hentries, hqget,
    or_and_right]
  apply or_congr_right
  constructor
  · rintro ⟨-, hget⟩
    split at hget
    · cases hget
    · next hkeeps =>
      have hown := hx.own_ids u a hget
      have hu : u ∈ x.order := (hx.mem_iff u).2 (OrderedDict.mem_of_get? hget)
      rw [hshared u hu] at hkeeps
      rw [hown]
      exact ⟨⟨hget, hkeeps⟩, rfl⟩
  · rintro ⟨⟨hget, hnot⟩, rfl⟩
    have hu : Observable.id a ∈ x.order := (hx.mem_iff _).2 (OrderedDict.mem_of_get? hget)
    rw [if_neg fun hmem ↦ hnot ((hshared _ hu).1 hmem)]
    refine ⟨?_, hget⟩
    rw [OrderedDict.get?_eq_none_iff, OrderedDict.mem_def, keys_of_entries hentries]
    exact fun hmem ↦ hrestNew _ hmem hu

theorem computes_symmDiff_iff :
    Computes (x.xor (some y) progressionId) (x.ixor (some y))
        (x.order.filter (· ∉ y.order) ++ y.order.filter (· ∉ x.order)) ↔
      x.EqualAsIds y := by
  obtain ⟨own, hown⟩ := hx.values_ok
  obtain ⟨items, hitems⟩ := hy.values_ok
  have hownIds := hx.ids_values hown
  have hitemsIds := hy.ids_values hitems
  obtain ⟨d, hentries, hxor⟩ := xor_eq hx hy hadmits hown hitems progressionId
  obtain ⟨q, hixor, hqorder, hqget⟩ := ixor_eq hx hy hadmits hitems
  have hkeptIff : (x.kept own items).map Observable.id = x.order.filter (· ∉ y.order) ↔
      ∀ i, x.collections.get? (Observable.id i) = some i →
        (x.MatchesShared y i ↔ Observable.id i ∈ y.order) := by
    rw [← hownIds, kept, ids_filter_eq_iff (hownIds ▸ hx.nodup)]
    refine forall_congr' fun i ↦ ?_
    rw [hx.mem_values hown]
    refine imp_congr_right fun _ ↦ ?_
    rw [decide_not, Bool.not_inj_iff, Bool.eq_iff_iff, any_shared_iff hy hitems, decide_eq_true_eq]
  have hrestIff : (x.unshared items).map Observable.id = y.order.filter (· ∉ x.order) ↔
      ∀ i, y.collections.get? (Observable.id i) = some i →
        (x.MatchesShared y i ↔ Observable.id i ∈ x.order) := by
    rw [← hitemsIds, unshared, ids_filter_eq_iff (hitemsIds ▸ hy.nodup)]
    refine forall_congr' fun i ↦ ?_
    rw [hy.mem_values hitems]
    refine imp_congr_right fun _ ↦ ?_
    rw [decide_not, Bool.not_inj_iff, Bool.eq_iff_iff, any_shared_iff hy hitems, decide_eq_true_eq]
  rw [EqualAsIds, ← hkeptIff, ← hrestIff]
  constructor
  · rintro ⟨result, hfresh, horder, -, hplace, -⟩
    rw [hxor, Except.ok.injEq] at hfresh
    subst hfresh
    rw [hixor, hqorder, List.append_right_inj] at hplace
    refine ⟨?_, hplace⟩
    have horder' : (x.kept own items ++ x.unshared items).map Observable.id = _ := horder
    rw [List.map_append, hplace, List.append_left_inj] at horder'
    exact horder'
  · rintro ⟨hkept, hrest⟩
    refine ⟨_, hxor, ?_, congrArg Prod.snd hixor, ?_, fun u ↦ ?_⟩
    · rw [← hkept, ← hrest, ← List.map_append]
      rfl
    · rw [hixor, hqorder, hrest]
    · rw [hixor]
      apply Option.ext
      intro a
      change q.collections.get? u = some a ↔ d.get? u = some a
      have hmem : a ∈ x.kept own items ↔
          x.collections.get? (Observable.id a) = some a ∧ Observable.id a ∉ y.order := by
        rw [kept, List.mem_filter, hx.mem_values hown, Bool.not_eq_true', ← Bool.not_eq_true,
          any_shared_iff hy hitems]
        exact and_congr_right fun hget ↦ not_congr (hkeptIff.1 hkept a hget)
      rw [hqget, get?_of_entries hentries, List.mem_append, or_comm, hmem]

end Laws

/-- Items that compare as their identifiers do keep all the laws. -/
theorem equalAsIds_of_eq_ids {y : Pile U α τ} (hx : x.Agrees) (hy : y.Agrees)
    (heq : ∀ a b : α, Observable.eq a b = true ↔ Observable.id a = Observable.id b) :
    x.EqualAsIds y := by
  constructor
  · intro i hi
    have hix : Observable.id i ∈ x.order := (hx.mem_iff _).2 (OrderedDict.mem_of_get? hi)
    constructor
    · rintro ⟨t, ht, -, hsame⟩
      rw [← (heq t i).1 hsame, hy.mem_iff]
      exact OrderedDict.mem_of_get? ht
    · intro hmem
      obtain ⟨t, ht⟩ := (OrderedDict.mem_iff_exists_get? _ _).1 ((hy.mem_iff _).1 hmem)
      have hid := hy.own_ids _ t ht
      exact ⟨t, hid.symm ▸ ht, hid.symm ▸ hix, (heq t i).2 hid⟩
  · intro i hi
    constructor
    · rintro ⟨t, -, hmem, hsame⟩
      exact (heq t i).1 hsame ▸ hmem
    · intro hmem
      exact ⟨i, hi, hmem, Observable.eq_refl i⟩

/-- Two sound piles that admit each other's items obey the laws of the set operators exactly when an
item of either equals a shared item of the second only where its identifier is shared. -/
theorem setAlgebra_iff (x y : Pile U α τ) (hx : x.Agrees) (hy : y.Agrees)
    (hadmits : ∀ u a, x.collections.get? u = some a ∨ y.collections.get? u = some a → x.Admits a)
    (progressionId : U) : SetAlgebra x y progressionId ↔ x.EqualAsIds y := by
  have hsymm := computes_symmDiff_iff hx hy hadmits progressionId
  constructor
  · intro h
    exact hsymm.1 h.symmDiff
  · intro h
    exact ⟨computes_union hx hy hadmits progressionId, computes_inter hx hy hadmits progressionId,
      hsymm.2 h⟩

/-- A pile with the one item `1`. -/
def oneItem : Pile ℕ (Bare ℕ) Unit where
  collections := OrderedDict.empty.set 1 ⟨1⟩
  itemType := none
  progression := ⟨8, [1], none⟩
  strictType := false

theorem new_oneItem : new (.ofItems [⟨1⟩] : Ref ℕ (Bare ℕ)) none none false 8 = .ok oneItem := rfl

theorem agrees_oneItem : oneItem.Agrees := agrees_new new_oneItem

theorem setAlgebra_iff_example : SetAlgebra twoItems oneItem 9 :=
  (setAlgebra_iff twoItems oneItem agrees_twoItems agrees_oneItem (fun _ _ _ ↦ rfl) 9).2
    (equalAsIds_of_eq_ids agrees_twoItems agrees_oneItem fun a b ↦ by
      refine decide_eq_true_iff.trans ⟨fun h ↦ congrArg Bare.id h, fun h ↦ ?_⟩
      cases a
      cases b
      exact congrArg Bare.mk h)

/-- A pile of empty progressions without a name. Progressions are compared by order and name. -/
def blanks (ids : List ℕ) : Except PyError (Pile ℕ (Progression ℕ) Unit) :=
  new (.ofItems (ids.map fun id ↦ ⟨id, [], none⟩)) none none false 9

theorem agrees_blanks (ids : List ℕ) {p : Pile ℕ (Progression ℕ) Unit} (h : blanks ids = .ok p) :
    p.Agrees :=
  agrees_new h

/-- Two empty progressions are equal, so the one that only the second pile has is lost. -/
theorem not_setAlgebra_blanks :
    ∃ x y, blanks [1] = .ok x ∧ blanks [1, 2] = .ok y ∧ x.Agrees ∧ y.Agrees ∧
      (∀ a, x.Admits a) ∧ (∀ progressionId, (x.xor (some y) progressionId).map Pile.order = .ok []) ∧
      x.order.filter (· ∉ y.order) ++ y.order.filter (· ∉ x.order) = [2] ∧
      ∀ progressionId, ¬ SetAlgebra x y progressionId := by
  refine ⟨_, _, rfl, rfl, agrees_blanks [1] rfl, agrees_blanks [1, 2] rfl, fun _ ↦ rfl, fun _ ↦ rfl,
    rfl, ?_⟩
  intro progressionId h
  obtain ⟨result, hresult, horder, -⟩ := h.symmDiff
  have hfresh : (Except.ok [] : Except PyError (List ℕ)) = .ok [2] := by
    have hmap := congrArg (Except.map Pile.order) hresult
    rw [Except.map, horder] at hmap
    exact hmap
  exact List.cons_ne_nil 2 [] (Except.ok.inj hfresh).symm

end Pile

end Lionagi.Protocols
