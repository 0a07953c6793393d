import Lionagi.Library.Transition
import Mathlib.Data.List.Dedup
import Mathlib.Data.List.Perm.Subperm
import Lionagi.Protocols.Pile

/-!
# The two sides of a pile

A pile is sound when its progression lists, without repetition, exactly the keys of its collections
and every item is stored under its own identifier. Most mutators keep the two sides in agreement;
for the others the exact condition is stated on the call and the state before it.
-/

universe u v w

set_option linter.unusedSectionVars false

namespace Lionagi.Protocols

open PySequence

variable {U : Type u} {α : Type v} {τ : Type w} [Observable α U τ] [DecidableEq U] [DecidableEq τ]

namespace Pile

/-! ## Specifications of the building blocks -/

variable (p : Pile U α τ)

@[simp] theorem order_withOrder (order : List U) :
    (p.withOrder order).order = order := rfl

@[simp] theorem collections_withOrder (order : List U) :
    (p.withOrder order).collections = p.collections := rfl

theorem withOrder_order : p.withOrder p.order = p := rfl

/-- Every dictionary built from items stores them under their own identifiers. -/
def OwnIds (d : OrderedDict U α) : Prop :=
  ∀ u a, d.get? u = some a → Observable.id a = u

variable {d : OrderedDict U α}

theorem ownIds_set (h : OwnIds d) {u : U} {a : α} (ha : Observable.id a = u) : OwnIds (d.set u a) := by
  intro u' a' hget
  rw [OrderedDict.get?_set] at hget
  split at hget
  · next heq => rw [heq, ← ha, ← Option.some.inj hget]
  · exact h u' a' hget

theorem ownIds_update {other : OrderedDict U α} (h : OwnIds d) (hother : OwnIds other) : OwnIds (d.update other) := by
  intro u a hget
  rcases OrderedDict.get?_update hget with hget | ⟨-, hget⟩
  · exact hother u a hget
  · exact h u a hget

variable {itemType : Option (List τ)} {strictType : Bool}

theorem ownIds_admitAll {items : List (Ref U α)} {acc : OrderedDict U α} (hacc : OwnIds acc)
    (h : admitAll itemType strictType items acc = .ok d) : OwnIds d := by
  induction items generalizing acc with
  | nil =>
    cases h
    exact hacc
  | cons i rest ih =>
    rw [admitAll] at h
    split at h
    · cases h
    · exact ih (ownIds_set hacc rfl) h

theorem ownIds_validateCollections {value : Ref U α} (h : validateCollections value itemType strictType = .ok d) :
    OwnIds d := by
  have hempty : OwnIds (OrderedDict.empty : OrderedDict U α) := by simp [OwnIds]
  unfold validateCollections at h
  split at h
  · cases h
    exact hempty
  · exact ownIds_admitAll hempty h

theorem validateOrder_ofIds (ids : List U) :
    (Ref.ofIds ids : Ref U α).validateOrder = .ok ids :=
  Ref.validateOrders_map_uuid ids

end Pile

namespace Progression

variable {order refs : List U}

theorem includeItem_of_validate {item : Ref U α} (h : item.validateOrder = .ok refs) :
    (includeItem order item).1 = includeRefs order refs := by
  unfold includeItem
  rw [h]
  cases refs <;> rfl

theorem exclude_of_validate {item : Ref U α} (h : item.validateOrder = .ok refs) :
    (exclude order item).1 = excludeRefs order refs := by
  unfold exclude
  rw [h]
  cases refs with
  | nil => simp [excludeRefs]
  | cons ref refs => rfl

end Progression

namespace Pile

/-- The keys popped before the first one that is absent, or no longer there. -/
def poppedKeys (d : OrderedDict U α) : List U → List U
  | [] => []
  | key :: keys => if key ∈ d then key :: poppedKeys (d.erase key) keys else []

variable {d itemDict : OrderedDict U α} {keys order refs : List U} {u uid : U}

theorem mem_of_mem_poppedKeys (h : u ∈ poppedKeys d keys) : u ∈ d ∧ u ∈ keys := by
  induction keys generalizing d with
  | nil => cases h
  | cons key keys ih =>
    rw [poppedKeys] at h
    split at h
    · next hkey =>
      rcases List.mem_cons.1 h with rfl | h
      · exact ⟨hkey, List.mem_cons_self⟩
      · obtain ⟨hd, hkeys⟩ := ih h
        exact ⟨((OrderedDict.mem_erase d key u).1 hd).2, List.mem_cons_of_mem _ hkeys⟩
    · cases h

theorem get?_popEach (d : OrderedDict U α) (keys : List U) (u : U) :
    (popEach d keys).1.get? u = if u ∈ poppedKeys d keys then none else d.get? u := by
  induction keys generalizing d with
  | nil => simp [popEach, poppedKeys]
  | cons key keys ih =>
    rw [popEach, poppedKeys]
    cases hget : d.get? key with
    | none =>
      have hkey : key ∉ d := (OrderedDict.get?_eq_none_iff d key).1 hget
      simp [hkey]
    | some a =>
      have hkey : key ∈ d := OrderedDict.mem_of_get? hget
      have hrest : (popEach (d.erase key) keys).1.get? u =
          if u ∈ key :: poppedKeys (d.erase key) keys then none else d.get? u := by
        rw [ih, OrderedDict.get?_erase]
        by_cases hu : u = key <;> simp [hu]
      rw [if_pos hkey, ← hrest]
      simp only
      split <;> simp_all

theorem mem_popEach (d : OrderedDict U α) (keys : List U) (u : U) :
    u ∈ (popEach d keys).1 ↔ u ∈ d ∧ u ∉ poppedKeys d keys := by
  rw [OrderedDict.mem_iff_isSome, get?_popEach, OrderedDict.mem_iff_isSome]
  split <;> simp_all

theorem ownIds_popEach (h : OwnIds d) (keys : List U) : OwnIds (popEach d keys).1 := by
  intro u a hget
  rw [get?_popEach] at hget
  split at hget
  · cases hget
  · exact h u a hget

theorem poppedKeys_eq (hnodup : keys.Nodup) (hmem : ∀ key ∈ keys, key ∈ d) : poppedKeys d keys = keys := by
  induction keys generalizing d with
  | nil => rfl
  | cons key keys ih =>
    rw [List.nodup_cons] at hnodup
    rw [poppedKeys, if_pos (hmem key List.mem_cons_self), ih hnodup.2]
    intro k hk
    rw [OrderedDict.mem_erase]
    exact ⟨fun heq ↦ hnodup.1 (heq ▸ hk), hmem k (List.mem_cons_of_mem _ hk)⟩

/-- Popping key by key succeeds exactly on distinct present keys. -/
theorem popEach_eq_ok_iff (d : OrderedDict U α) (keys : List U) :
    (∃ items, (popEach d keys).2 = .ok items) ↔ keys.Nodup ∧ ∀ key ∈ keys, key ∈ d := by
  induction keys generalizing d with
  | nil => simp [popEach]
  | cons key keys ih =>
    rw [popEach]
    cases hget : d.get? key with
    | none =>
      have hkey : key ∉ d := (OrderedDict.get?_eq_none_iff d key).1 hget
      simp [hkey]
    | some a =>
      have hkey : key ∈ d := OrderedDict.mem_of_get? hget
      have hsplit : (∃ items, (popEach d (key :: keys)).2 = .ok items) ↔
          ∃ items, (popEach (d.erase key) keys).2 = .ok items := by
        rw [popEach, hget]
        simp only
        split <;> simp_all
      rw [popEach, hget] at hsplit
      rw [hsplit, ih]
      simp only [OrderedDict.mem_erase, List.nodup_cons, List.mem_cons, forall_eq_or_imp, hkey,
        true_and]
      constructor
      · rintro ⟨hnodup, hall⟩
        exact ⟨⟨fun hmem ↦ (hall key hmem).1 rfl, hnodup⟩, fun k hk ↦ (hall k hk).2⟩
      · rintro ⟨⟨hnot, hnodup⟩, hall⟩
        exact ⟨hnodup, fun k hk ↦ ⟨fun heq ↦ hnot (heq ▸ hk), hall k hk⟩⟩

theorem popKeys_fst (p : Pile U α τ) (order keys : List U)
    (wrap : List α → Except PyError (Popped U α)) (hasDefault : Bool) :
    (p.popKeys order keys wrap hasDefault).1 =
      { p.withOrder order with collections := (popEach p.collections keys).1 } := by
  unfold popKeys
  cases hpop : popEach p.collections keys with
  | mk collections result =>
    cases result with
    | error e => rfl
    | ok items =>
      simp only
      split <;> rfl

/-! ## Agreement -/

/-- The representation invariant. -/
structure Agrees (p : Pile U α τ) : Prop where
  nodup : p.order.Nodup
  mem_iff : ∀ u, u ∈ p.order ↔ u ∈ p.collections
  own_ids : OwnIds p.collections

theorem lookupAll_of_mem (h : ∀ key ∈ keys, key ∈ d) : ∃ items, lookupAll d keys = .ok items := by
  induction keys with
  | nil => exact ⟨[], rfl⟩
  | cons key keys ih =>
    obtain ⟨a, ha⟩ := (OrderedDict.mem_iff_exists_get? d key).1 (h key List.mem_cons_self)
    obtain ⟨rest, hrest⟩ := ih fun k hk ↦ h k (List.mem_cons_of_mem _ hk)
    exact ⟨a :: rest, by simp [lookupAll, ha, hrest]⟩

/-- Iterating a pile whose sides agree raises nothing. -/
theorem lookupAll_congr {d' : OrderedDict U α} (h : ∀ key ∈ keys, d'.get? key = d.get? key) :
    lookupAll d' keys = lookupAll d keys := by
  induction keys with
  | nil => rfl
  | cons key keys ih =>
    rw [List.forall_mem_cons] at h
    rw [lookupAll, lookupAll, h.1, ih h.2]

variable {p : Pile U α τ}

theorem Agrees.values_ok (h : p.Agrees) : ∃ items, p.values = .ok items :=
  lookupAll_of_mem fun key hkey ↦ (h.mem_iff key).1 hkey

theorem Agrees.len_eq (h : p.Agrees) : p.len = p.order.length := by
  have hperm : p.order.Perm p.collections.keys :=
    (List.perm_ext_iff_of_nodup h.nodup p.collections.keys_nodup).2 h.mem_iff
  exact hperm.length_eq.symm

/-- Adding items under fresh keys, with the keys added to the order in any way. -/
theorem Agrees.add (h : p.Agrees) (hown : OwnIds itemDict) (hnodup : order.Nodup)
    (hmem : ∀ u, u ∈ order ↔ u ∈ p.order ∨ u ∈ itemDict) :
    ({ p.withOrder order with collections := p.collections.update itemDict } :
      Pile U α τ).Agrees where
  nodup := hnodup
  mem_iff u := by
    change u ∈ order ↔ _
    rw [hmem, OrderedDict.mem_update, h.mem_iff]
  own_ids := ownIds_update h.own_ids hown

/-- Dropping identifiers from the order and popping keys from the collections keeps the agreement
exactly when both drop the same of the present identifiers. -/
theorem Agrees.trim_iff (h : p.Agrees) (dropped keys : List U) :
    ({ p.withOrder (Progression.excludeRefs p.order dropped) with
        collections := (popEach p.collections keys).1 } : Pile U α τ).Agrees ↔
      ∀ u ∈ p.order, (u ∈ dropped ↔ u ∈ poppedKeys p.collections keys) := by
  constructor
  · intro hagrees u hu
    have hiff := hagrees.mem_iff u
    change u ∈ Progression.excludeRefs p.order dropped ↔ u ∈ (popEach p.collections keys).1 at hiff
    rw [Progression.mem_excludeRefs, mem_popEach, ← h.mem_iff] at hiff
    tauto
  · intro hsame
    refine ⟨Progression.nodup_excludeRefs h.nodup _, fun u ↦ ?_, ownIds_popEach h.own_ids _⟩
    change u ∈ Progression.excludeRefs p.order dropped ↔ u ∈ (popEach p.collections keys).1
    rw [Progression.mem_excludeRefs, mem_popEach, ← h.mem_iff]
    exact and_congr_right fun hu ↦ not_congr (hsame u hu)

/-! ## Mutators that always keep the agreement -/

theorem agrees_includeItem (h : p.Agrees) (item : Ref U α) : (p.includeItem item).1.Agrees := by
  unfold includeItem
  split
  · exact h
  · next itemDict hdict =>
    rw [Progression.includeItem_of_validate (validateOrder_ofIds itemDict.keys)]
    refine h.add (ownIds_validateCollections hdict) (Progression.nodup_includeRefs h.nodup _) ?_
    intro u
    exact Progression.mem_includeRefs p.order itemDict.keys u

variable {a : α}

theorem agrees_replace (h : p.Agrees) (hu : u ∈ p.collections) (ha : Observable.id a = u) :
    ({ p with collections := p.collections.set u a } : Pile U α τ).Agrees where
  nodup := h.nodup
  mem_iff v := by
    change v ∈ p.order ↔ v ∈ p.collections.set u a
    rw [h.mem_iff, OrderedDict.mem_set]
    exact ⟨Or.inr, fun hv ↦ hv.elim (fun heq ↦ heq ▸ hu) id⟩
  own_ids := ownIds_set h.own_ids ha

theorem agrees_updateEach (h : p.Agrees) {others : List (U × α)}
    (hown : ∀ entry ∈ others, Observable.id entry.2 = entry.1) : (p.updateEach others).1.Agrees := by
  induction others generalizing p with
  | nil => exact h
  | cons entry rest ih =>
    obtain ⟨i, other⟩ := entry
    rw [List.forall_mem_cons] at hown
    rw [updateEach]
    split
    · next hi => exact ih (agrees_replace h hi hown.1) hown.2
    · have hstep := agrees_includeItem h (.item other)
      split
      · next p' e heq => simpa only [heq] using hstep
      · next p' heq => exact ih (by simpa only [heq] using hstep) hown.2

theorem agrees_update (h : p.Agrees) (other : Ref U α) : (p.update other).1.Agrees := by
  unfold update
  split
  · exact h
  · next others hothers =>
    refine agrees_updateEach h fun entry hentry ↦ ?_
    exact ownIds_validateCollections hothers entry.1 entry.2
      ((OrderedDict.get?_eq_some_iff others entry.1 entry.2).2 hentry)

theorem agrees_clear (p : Pile U α τ) : p.clear.1.Agrees where
  nodup := List.nodup_nil
  mem_iff u := by
    change u ∈ [] ↔ u ∈ OrderedDict.empty
    simp
  own_ids u a hget := by
    change OrderedDict.empty.get? u = some a at hget
    simp at hget

theorem not_mem_of_any_eq_false (h : ¬ keys.any (· ∈ order) = true) : ∀ key ∈ keys, key ∉ order := by
  simpa using h

theorem agrees_insert (h : p.Agrees) (index : Int) (item : Ref U α) : (p.insert index item).1.Agrees := by
  unfold insert
  split
  · exact h
  · next itemDict hdict =>
    split
    · exact h
    · next hfresh =>
      simp only [Progression.insert, validateOrder_ofIds]
      refine h.add (ownIds_validateCollections hdict) ?_ fun u ↦ ?_
      · exact Progression.nodup_insertRefs h.nodup itemDict.keys_nodup
          (not_mem_of_any_eq_false hfresh) index
      · rw [Progression.mem_insertRefs, or_comm]
        rfl

theorem agrees_ior (h : p.Agrees) (other : Option (Pile U α τ)) : (p.ior other).1.Agrees := by
  unfold ior
  cases other with
  | none => exact h
  | some other =>
    simp only
    split
    · exact h
    · split
      · exact h
      · exact agrees_includeItem h _

/-! ## Popping -/

/-- No present identifier first occurs after an absent or a repeated one. -/
def Unbroken (order refs : List U) : Prop :=
  ∀ before key after, refs = before ++ key :: after → (key ∉ order ∨ key ∈ before) →
    ∀ u ∈ after, u ∈ order → u ∈ before

theorem unbroken_cons_iff (refs : List U) {key : U} (hkey : key ∉ order) :
    Unbroken order (key :: refs) ↔ ∀ u ∈ refs, u ∉ order := by
  constructor
  · intro h u hu hmem
    cases h [] key refs rfl (Or.inl hkey) u hu hmem
  · intro h before k after heq hk u hu hmem
    exfalso
    have hrefs : u ∈ key :: refs := heq ▸ List.mem_append_right _ (List.mem_cons_of_mem _ hu)
    rcases List.mem_cons.1 hrefs with rfl | hu'
    · exact hkey hmem
    · exact h u hu' hmem

theorem covered_iff (d : OrderedDict U α) (keys : List U) :
    (∀ u ∈ keys, u ∈ d → u ∈ poppedKeys d keys) ↔ Unbroken d.keys keys := by
  induction keys generalizing d with
  | nil => simp [Unbroken]
  | cons key keys ih =>
    by_cases hkey : key ∈ d
    · have hrest := ih (d.erase key)
      rw [poppedKeys, if_pos hkey]
      constructor
      · intro hcovered before k after heq hk u hu hmem
        have hcovered' : ∀ v ∈ keys, v ∈ d.erase key → v ∈ poppedKeys (d.erase key) keys := by
          intro v hv hvd
          rw [OrderedDict.mem_erase] at hvd
          exact (List.mem_cons.1 (hcovered v (List.mem_cons_of_mem _ hv) hvd.2)).resolve_left hvd.1
        cases before with
        | nil =>
          cases heq
          rcases hk with hk | hk
          · exact absurd hkey hk
          · cases hk
        | cons first before =>
          simp only [List.cons_append, List.cons.injEq] at heq
          obtain ⟨rfl, heq⟩ := heq
          by_cases hu' : u = key
          · exact hu' ▸ List.mem_cons_self
          · refine List.mem_cons_of_mem _ (hrest.1 hcovered' before k after heq ?_ u hu ?_)
            · rw [← OrderedDict.mem_def, OrderedDict.mem_erase]
              rcases hk with hk | hk
              · exact Or.inl fun h ↦ hk h.2
              · rcases List.mem_cons.1 hk with rfl | hk
                · exact Or.inl fun h ↦ h.1 rfl
                · exact Or.inr hk
            · exact (OrderedDict.mem_erase d key u).2 ⟨hu', hmem⟩
      · intro hunbroken u hu hmem
        by_cases hu' : u = key
        · exact hu' ▸ List.mem_cons_self
        · refine List.mem_cons_of_mem _ (hrest.2 ?_ u ((List.mem_cons.1 hu).resolve_left hu') ?_)
          · intro before k after heq hk v hv hvd
            rw [← OrderedDict.mem_def, OrderedDict.mem_erase] at hvd hk
            have hbefore := hunbroken (key :: before) k after (by rw [heq]; rfl) ?_ v hv hvd.2
            · exact (List.mem_cons.1 hbefore).resolve_left hvd.1
            · by_cases hkk : k = key
              · exact Or.inr (hkk ▸ List.mem_cons_self)
              · exact hk.imp (fun h hmem' ↦ h ⟨hkk, hmem'⟩) (List.mem_cons_of_mem _)
          · exact (OrderedDict.mem_erase d key u).2 ⟨hu', hmem⟩
    · rw [poppedKeys, if_neg hkey, unbroken_cons_iff keys (mt OrderedDict.mem_def.2 hkey)]
      simp only [List.mem_cons, forall_eq_or_imp, List.not_mem_nil, imp_false]
      exact ⟨fun h ↦ h.2, fun h ↦ ⟨hkey, h⟩⟩

theorem unbroken_congr {order' : List U} (refs : List U) (h : ∀ u, u ∈ order ↔ u ∈ order') :
    Unbroken order refs ↔ Unbroken order' refs := by
  simp only [Unbroken, h]

theorem unbroken_of_nodup (hnodup : refs.Nodup) (hmem : ∀ u ∈ refs, u ∈ order) : Unbroken order refs := by
  rintro before key after rfl hkey
  rw [List.nodup_append] at hnodup
  rcases hkey with hkey | hkey
  · exact absurd (hmem key (by simp)) hkey
  · exact absurd rfl (hnodup.2.2 key hkey key List.mem_cons_self)

/-- Popping by references keeps the agreement exactly when the references are unbroken. -/
theorem agrees_popRef_iff (h : p.Agrees) (key : Ref U α) (hasDefault : Bool) :
    (p.popRef key hasDefault).1.Agrees ↔
      ∀ refs, key.validateOrder = .ok refs → Unbroken p.order refs := by
  unfold popRef
  cases hrefs : key.validateOrder with
  | error e => simpa using h
  | ok refs =>
    simp only [popKeys_fst, Progression.exclude_of_validate (validateOrder_ofIds refs),
      Except.ok.injEq, forall_eq']
    rw [h.trim_iff, unbroken_congr refs fun u ↦ (h.mem_iff u).trans OrderedDict.mem_def, ← covered_iff]
    constructor
    · intro hsame u hu hmem
      exact (hsame u ((h.mem_iff u).2 hmem)).1 hu
    · intro hcovered u hu
      exact ⟨fun hmem ↦ hcovered u hmem ((h.mem_iff u).1 hu),
        fun hpopped ↦ (mem_of_mem_poppedKeys hpopped).2⟩

theorem agrees_popInt (h : p.Agrees) (index : Int) (hasDefault : Bool) (sliceId : U) :
    (p.pop (.int index) hasDefault sliceId).1.Agrees := by
  unfold pop
  simp only
  split
  · exact h
  · next uid hget =>
    have hmem : uid ∈ p.order := by
      unfold Progression.getItem at hget
      split at hget <;> cases hget
      next hget => exact mem_of_getItem hget
    rw [popKeys_fst, Progression.exclude_of_validate (validateOrder_ofIds [uid]), h.trim_iff]
    intro u _
    rw [poppedKeys_eq (List.nodup_singleton uid) (by simpa using (h.mem_iff uid).1 hmem)]

theorem getSlice_eq_ok {pops : List U} {s : Slice} (h : Progression.getSlice order s = .ok pops) :
    PySequence.getSlice order s = some pops ∧ pops ≠ [] := by
  unfold Progression.getSlice at h
  split at h <;> cases h
  next hne hget => exact ⟨hget, fun heq ↦ hne heq⟩

/-- Popping a slice keeps the agreement exactly when it selects nothing but the identifier the
slice itself drew. -/
theorem agrees_popSlice_iff (h : p.Agrees) (s : Slice) (hasDefault : Bool) (sliceId : U) :
    (p.pop (.slice s) hasDefault sliceId).1.Agrees ↔
      ∀ pops, Progression.getSlice p.order s = .ok pops → ∀ u ∈ p.order, u ∈ pops ↔ u = sliceId := by
  simp only [pop]
  cases hget : Progression.getSlice p.order s with
  | error e => simpa using h
  | ok pops =>
    obtain ⟨hslice, -⟩ := getSlice_eq_ok hget
    have hpopped : poppedKeys p.collections pops = pops :=
      poppedKeys_eq (nodup_getSlice h.nodup hslice) fun u hu ↦
        (h.mem_iff u).1 (mem_of_mem_getSlice hslice hu)
    simp only [popKeys_fst, Progression.exclude_of_validate (Ref.validateOrder_uuid sliceId),
      Except.ok.injEq, forall_eq']
    rw [h.trim_iff, hpopped]
    simp only [List.mem_singleton]
    exact forall₂_congr fun u _ ↦ iff_comm

theorem agrees_remove_iff (h : p.Agrees) (r : Ref U α) :
    (p.remove (.ref r)).1.Agrees ↔
      (p.contains r = true → ∀ refs, r.validateOrder = .ok refs → Unbroken p.order refs) := by
  simp only [remove]
  split
  · next hcontains =>
    simp only [agrees_popRef_iff h, hcontains, true_implies]
  · next hcontains =>
    exact ⟨fun _ hcontains' ↦ absurd hcontains' hcontains, fun _ ↦ h⟩

theorem agrees_exclude_iff (h : p.Agrees) (item : Ref U α) :
    (p.exclude item).1.Agrees ↔
      ∀ refs, Ref.validateOrders (item.toListType.filter p.contains) = .ok refs →
        Unbroken p.order refs := by
  unfold exclude
  split
  · next hnil =>
    have hunbroken : Unbroken p.order [] := by
      intro before key after heq
      simp at heq
    rw [hnil]
    simpa [Ref.validateOrders, hunbroken] using h
  · exact agrees_popRef_iff h _ false

/-- A pop by references that succeeds leaves the two sides in agreement. -/
theorem agrees_of_popRef_ok (h : p.Agrees) {key : Ref U α} {popped : Popped U α}
    (hok : (p.popRef key false).2 = .ok popped) : (p.popRef key false).1.Agrees := by
  rw [agrees_popRef_iff h]
  intro refs hrefs
  have hpopped : ∃ items, (popEach p.collections refs).2 = .ok items := by
    rw [popRef, hrefs] at hok
    simp only [popKeys, orDefault] at hok
    split at hok
    · simp at hok
    · next collections items heq => exact ⟨items, by rw [heq]⟩
  obtain ⟨hnodup, hmem⟩ := (popEach_eq_ok_iff p.collections refs).1 hpopped
  exact unbroken_of_nodup hnodup fun u hu ↦ (h.mem_iff u).2 (hmem u hu)

theorem agrees_of_exclude_ok (h : p.Agrees) {item : Ref U α} (hok : (p.exclude item).2 = .ok ()) :
    (p.exclude item).1.Agrees := by
  unfold exclude at hok ⊢
  split at hok
  · exact h
  · next excludeList _ heq =>
    cases hpop : (p.popRef (.list (item.toListType.filter p.contains)) false).2 with
    | error e => simp [hpop, Except.map] at hok
    | ok popped => exact agrees_of_popRef_ok h hpop

theorem filter_contains_ofItems (p : Pile U α τ) (items : List α) :
    (Ref.ofItems (U := U) (items.filter fun i ↦ p.contains (.item i))).toListType.filter p.contains =
      (items.filter fun i ↦ p.contains (.item i)).map Ref.item := by
  refine List.filter_eq_self.2 fun r hr ↦ ?_
  obtain ⟨a, ha, rfl⟩ := List.mem_map.1 hr
  exact (List.mem_filter.1 ha).2

/-! ## Single items -/

theorem popRef_fst {r : Ref U α} (h : r.validateOrder = .ok refs) (hasDefault : Bool) :
    (p.popRef r hasDefault).1 = { p.withOrder (Progression.excludeRefs p.order refs) with
      collections := (popEach p.collections refs).1 } := by
  simp only [popRef, h, popKeys_fst, Progression.exclude_of_validate (validateOrder_ofIds refs)]

theorem agrees_popOne (h : p.Agrees) (hmem : uid ∈ p.order) : (p.popRef (.uuid uid) false).1.Agrees := by
  rw [agrees_popRef_iff h]
  intro refs hrefs
  cases hrefs
  exact unbroken_of_nodup (List.nodup_singleton uid) (by simpa using hmem)

theorem get?_popOne (p : Pile U α τ) (uid u : U) :
    (p.popRef (.uuid uid) false).1.collections.get? u =
      if u = uid then none else p.collections.get? u := by
  rw [popRef_fst (Ref.validateOrder_uuid uid)]
  change (popEach p.collections [uid]).1.get? u = _
  by_cases hmem : uid ∈ p.collections
  · rw [get?_popEach, poppedKeys_eq (List.nodup_singleton uid) (by simpa using hmem)]
    simp only [List.mem_singleton]
  · have hnone : p.collections.get? uid = none := (OrderedDict.get?_eq_none_iff _ _).2 hmem
    simp only [popEach, hnone]
    split
    · next heq => rw [heq, hnone]
    · rfl

theorem mem_order_popOne (p : Pile U α τ) (uid u : U) :
    u ∈ (p.popRef (.uuid uid) false).1.order ↔ u ∈ p.order ∧ u ≠ uid := by
  rw [popRef_fst (Ref.validateOrder_uuid uid)]
  change u ∈ Progression.excludeRefs p.order [uid] ↔ _
  rw [Progression.mem_excludeRefs, List.mem_singleton]

variable {itemType : Option (List τ)} {strictType : Bool}

theorem admitItem_ok {i : Ref U α} (h : admitItem itemType strictType i = .ok a) : i = .item a := by
  cases i with
  | item b =>
    cases itemType with
    | none =>
      cases h
      rfl
    | some types =>
      cases types with
      | nil =>
        cases h
        rfl
      | cons t types =>
        simp only [admitItem] at h
        split at h <;> split at h <;> cases h <;> rfl
  | _ =>
    cases itemType with
    | none => cases h
    | some types => cases types <;> cases h

theorem validateCollections_item (h : validateCollections (.item a) itemType strictType = .ok d) :
    d = OrderedDict.empty.set (Observable.id a) a := by
  simp only [validateCollections, Ref.falsy, Ref.toListType, admitAll, Bool.false_eq_true,
    if_false] at h
  split at h
  · cases h
  · next b hb =>
    cases admitItem_ok hb
    cases h
    rfl

variable {index : Int}

theorem insert_item_ok {p' : Pile U α τ} (h : p.insert index (.item a) = (p', .ok ())) :
    Observable.id a ∉ p.order ∧ p'.collections = p.collections.set (Observable.id a) a := by
  unfold insert at h
  split at h
  · cases h
  · next itemDict hdict =>
    cases validateCollections_item hdict
    split at h
    · cases h
    · next hfresh =>
      simp only [Progression.insert, validateOrder_ofIds] at h
      cases h
      exact ⟨not_mem_of_any_eq_false hfresh _ List.mem_cons_self, rfl⟩

/-- A stored object may be changed in place as long as it keeps its identifier. -/
theorem Agrees.modify (h : p.Agrees) (uid : U) {change : α → α}
    (hid : ∀ a : α, Observable.id (change a) = Observable.id a) :
    Agrees { p with collections := p.collections.modify uid change } := by
  refine ⟨h.nodup, fun u ↦ ?_, fun u a hget ↦ ?_⟩
  · change u ∈ p.order ↔ u ∈ p.collections.modify uid change
    rw [OrderedDict.mem_modify]
    exact h.mem_iff u
  · change (p.collections.modify uid change).get? u = some a at hget
    rw [OrderedDict.get?_modify] at hget
    split at hget
    · obtain ⟨old, hold, rfl⟩ := Option.map_eq_some_iff.1 hget
      exact (hid old).trans (h.own_ids u old hold)
    · exact h.own_ids u a hget

/-! ## Assignment -/

theorem getItem_eq_ok (h : Progression.getItem order index = .ok uid) :
    ∃ j, normIndex order.length index = some j ∧ order[j]? = some uid := by
  unfold Progression.getItem at h
  split at h <;> cases h
  next h => exact getItem_eq_some_iff.1 h

/-- What `_setitem` does to the order at an index in range: the first new key replaces the old. -/
theorem setItem_ofIds_cons {j : Nat} (key : U) (keys : List U) (hj : normIndex order.length index = some j) :
    Progression.setItem order index (.ofIds (key :: keys) : Ref U α) =
      (order.set j key, .ok ()) := by
  simp [Progression.setItem, validateOrder_ofIds, PySequence.setItem, hj]

theorem replaceAt_ok (order : List U) (itemDict : OrderedDict U α) (hnodup : keys.Nodup)
    (hmem : ∀ key ∈ keys, key ∈ p.collections) :
    replaceAt p (.ok keys) (order, .ok ()) itemDict =
      ({ p.withOrder order with
          collections := (popEach p.collections keys).1.update itemDict }, .ok ()) := by
  obtain ⟨items, hitems⟩ := (popEach_eq_ok_iff p.collections keys).2 ⟨hnodup, hmem⟩
  have hpop : popEach p.collections keys = ((popEach p.collections keys).1, .ok items) := by
    rw [← hitems]
  rw [replaceAt, hpop]

/-- Assigning at an index keeps the agreement exactly when at most one item is assigned. -/
theorem agrees_replaceAt_int_iff (h : p.Agrees) (hown : OwnIds itemDict) (hfresh : ∀ key ∈ itemDict.keys, key ∉ p.order)
    (index : Int) :
    (replaceAt p ((Progression.getItem p.order index).map fun uid ↦ [uid])
        (Progression.setItem p.order index (.ofIds itemDict.keys : Ref U α)) itemDict).1.Agrees ↔
      ∀ uid, Progression.getItem p.order index = .ok uid → itemDict.keys.length ≤ 1 := by
  cases hget : Progression.getItem p.order index with
  | error e => simpa [replaceAt, Except.map] using h
  | ok uid =>
    obtain ⟨j, hj, hold⟩ := getItem_eq_ok hget
    have huid : uid ∈ p.order := List.mem_of_getElem? hold
    have hmem_dict : ∀ u, u ∈ itemDict ↔ u ∈ itemDict.keys := fun u ↦ Iff.rfl
    have hkeys := itemDict.keys_nodup
    cases hk : itemDict.keys with
    | nil =>
      simpa [replaceAt, Except.map, Progression.setItem, validateOrder_ofIds, withOrder_order] using h
    | cons key keys =>
      rw [hk] at hfresh hmem_dict hkeys
      have hpopped : poppedKeys p.collections [uid] = [uid] :=
        poppedKeys_eq (List.nodup_singleton uid) (by simpa using (h.mem_iff uid).1 huid)
      have hresult := replaceAt_ok (p := p) (p.order.set j key) itemDict (List.nodup_singleton uid)
        (by simpa using (h.mem_iff uid).1 huid)
      rw [setItem_ofIds_cons key keys hj, Except.map, hresult]
      have hleft : ∀ u, u ∈ p.order.set j key ↔ (u ∈ p.order ∧ u ≠ uid) ∨ u = key :=
        fun u ↦ mem_set_iff h.nodup hold
      have hright : ∀ u, u ∈ (popEach p.collections [uid]).1.update itemDict ↔
          (u ∈ p.order ∧ u ≠ uid) ∨ u ∈ key :: keys := by
        intro u
        rw [OrderedDict.mem_update, mem_popEach, hpopped, hmem_dict, h.mem_iff, List.mem_singleton]
      constructor
      · intro hagrees _ _
        have hsub : ∀ u ∈ keys, u = key := by
          intro u hu
          have hmem := (hagrees.mem_iff u).2 ((hright u).2 (Or.inr (List.mem_cons_of_mem _ hu)))
          rcases (hleft u).1 hmem with ⟨hold', -⟩ | heq
          · exact absurd hold' (hfresh u (List.mem_cons_of_mem _ hu))
          · exact heq
        cases keys with
        | nil => simp
        | cons key' keys =>
          rw [List.nodup_cons] at hkeys
          exact absurd (hsub key' List.mem_cons_self ▸ List.mem_cons_self) hkeys.1
      · intro hlen
        have hnil : keys = [] := by
          have := hlen uid rfl
          simpa using this
        refine ⟨h.nodup.set (hfresh key List.mem_cons_self), fun u ↦ ?_,
          ownIds_update (ownIds_popEach h.own_ids _) hown⟩
        refine (hleft u).trans (Iff.trans ?_ (hright u).symm)
        rw [hnil, List.mem_singleton]

theorem agrees_replaceAt_slice (h : p.Agrees) (hown : OwnIds itemDict) (hfresh : ∀ key ∈ itemDict.keys, key ∉ p.order)
    (s : Slice) :
    (replaceAt p (Progression.getSlice p.order s)
        (Progression.setSlice p.order s (.ofIds itemDict.keys : Ref U α)) itemDict).1.Agrees := by
  cases hget : Progression.getSlice p.order s with
  | error e => simpa [replaceAt] using h
  | ok sel =>
    obtain ⟨hslice, -⟩ := getSlice_eq_ok hget
    have hsel : ∀ u ∈ sel, u ∈ p.collections := fun u hu ↦
      (h.mem_iff u).1 (mem_of_mem_getSlice hslice hu)
    have hpopped : poppedKeys p.collections sel = sel :=
      poppedKeys_eq (nodup_getSlice h.nodup hslice) hsel
    simp only [Progression.setSlice, validateOrder_ofIds]
    cases hset : PySequence.setSlice p.order s itemDict.keys with
    | none => exact h
    | some order =>
      obtain ⟨hnodup, hmem⟩ := setSlice_spec h.nodup itemDict.keys_nodup hfresh hslice hset
      simp only [replaceAt_ok order itemDict (nodup_getSlice h.nodup hslice) hsel]
      refine ⟨hnodup, fun u ↦ ?_, ownIds_update (ownIds_popEach h.own_ids _) hown⟩
      change u ∈ order ↔ u ∈ (popEach p.collections sel).1.update itemDict
      rw [hmem, OrderedDict.mem_update, mem_popEach, hpopped, h.mem_iff]
      rfl

theorem validateOrder_of_getId {k : Ref U α} (h : k.getId = .ok uid) : k.validateOrder = .ok [uid] := by
  cases k with
  | item a => simpa [Ref.getId] using h
  | uuid u => simpa [Ref.getId] using h
  | str parsed =>
    cases parsed with
    | none => cases h
    | some u =>
      cases h
      rfl
  | _ => cases h

/-- Keys that pass the check are single references to the items. -/
theorem checkKeys_ok {itemOrder : List U} {keys : List (Ref U α)}
    (h : checkKeys itemOrder keys = .ok ()) :
    ∃ refs, Ref.validateOrders keys = .ok refs ∧ refs.length = keys.length ∧
      ∀ ref ∈ refs, ref ∈ itemOrder := by
  induction keys with
  | nil => exact ⟨[], rfl, rfl, by simp⟩
  | cons k rest ih =>
    rw [checkKeys] at h
    split at h
    · cases h
    · next uid hid =>
      split at h
      · next hmem =>
        obtain ⟨refs, hrefs, hlen, hall⟩ := ih h
        refine ⟨uid :: refs, ?_, by simp [hlen], by simpa using ⟨hmem, hall⟩⟩
        rw [Ref.validateOrders_cons, validateOrder_of_getId hid, hrefs]
        rfl
      · cases h

/-- Appending keys of the items and storing the items keeps the agreement exactly when no key
repeats. -/
theorem agrees_appendKeys_iff (h : p.Agrees) (hown : OwnIds itemDict) (hfresh : ∀ key ∈ itemDict.keys, key ∉ p.order)
    (hlen : refs.length = itemDict.keys.length) (hrefs : ∀ ref ∈ refs, ref ∈ itemDict.keys) :
    ({ p.withOrder (p.order ++ refs) with collections := p.collections.update itemDict } :
      Pile U α τ).Agrees ↔ refs.Nodup := by
  constructor
  · intro hagrees
    exact (List.nodup_append.1 hagrees.nodup).2.1
  · intro hnodup
    have hperm : refs.Perm itemDict.keys :=
      (hnodup.subperm hrefs).perm_of_length_le (by omega)
    refine h.add hown (List.nodup_append.2 ⟨h.nodup, hnodup, ?_⟩) fun u ↦ ?_
    · rintro u hu v hv rfl
      exact hfresh u (hrefs u hv) hu
    · rw [List.mem_append, hperm.mem_iff]
      rfl

/-- Keys of a keyed assignment that pass every check and then name an item twice. -/
def RepeatsKey (p : Pile U α τ) (r item : Ref U α) : Prop :=
  ∃ itemDict refs, validateCollections item p.itemType p.strictType = .ok itemDict ∧
    (∀ key ∈ itemDict.keys, key ∉ p.order) ∧ (assignKeys r).length = itemDict.keys.length ∧
    checkKeys itemDict.keys (assignKeys r) = .ok () ∧
    Ref.validateOrders (assignKeys r) = .ok refs ∧ ¬ refs.Nodup

/-- Several items that pass every check, assigned at an index in range. -/
def CrowdsIndex (p : Pile U α τ) (index : Int) (item : Ref U α) : Prop :=
  ∃ itemDict uid, validateCollections item p.itemType p.strictType = .ok itemDict ∧
    (∀ key ∈ itemDict.keys, key ∉ p.order) ∧ Progression.getItem p.order index = .ok uid ∧
    1 < itemDict.keys.length

theorem agrees_setitemInt_iff (h : p.Agrees) (index : Int) (item : Ref U α) :
    (p.setitem (.int index) item).1.Agrees ↔ ¬ CrowdsIndex p index item := by
  unfold setitem
  cases hdict : validateCollections item p.itemType p.strictType with
  | error e => simpa [CrowdsIndex, hdict] using h
  | ok itemDict =>
    simp only
    split
    · next hany =>
      refine ⟨?_, fun _ ↦ h⟩
      rintro - ⟨itemDict', uid, hdict', hfresh, -⟩
      rw [hdict, Except.ok.injEq] at hdict'
      subst hdict'
      obtain ⟨key, hkey, hmem⟩ := List.any_eq_true.1 hany
      exact hfresh key hkey (by simpa using hmem)
    · next hany =>
      have hfresh := not_mem_of_any_eq_false hany
      rw [agrees_replaceAt_int_iff h (ownIds_validateCollections hdict) hfresh]
      constructor
      · rintro hone ⟨itemDict', uid, hdict', -, huid, hlen⟩
        rw [hdict, Except.ok.injEq] at hdict'
        subst hdict'
        exact absurd (hone uid huid) (by omega)
      · intro hnot uid huid
        by_contra hlen
        exact hnot ⟨itemDict, uid, hdict, hfresh, huid, by omega⟩

theorem agrees_setitemSlice (h : p.Agrees) (s : Slice) (item : Ref U α) : (p.setitem (.slice s) item).1.Agrees := by
  unfold setitem
  cases hdict : validateCollections item p.itemType p.strictType with
  | error e => exact h
  | ok itemDict =>
    simp only
    split
    · exact h
    · next hany =>
      exact agrees_replaceAt_slice h (ownIds_validateCollections hdict)
        (not_mem_of_any_eq_false hany) s

theorem agrees_setitemRef_iff (h : p.Agrees) (r item : Ref U α) :
    (p.setitem (.ref r) item).1.Agrees ↔ ¬ RepeatsKey p r item := by
  unfold setitem
  cases hdict : validateCollections item p.itemType p.strictType with
  | error e => simpa [RepeatsKey, hdict] using h
  | ok itemDict =>
    simp only
    split
    · next hany =>
      refine ⟨?_, fun _ ↦ h⟩
      rintro - ⟨itemDict', refs, hdict', hfresh, -⟩
      rw [hdict, Except.ok.injEq] at hdict'
      subst hdict'
      obtain ⟨key, hkey, hmem⟩ := List.any_eq_true.1 hany
      exact hfresh key hkey (by simpa using hmem)
    · next hany =>
      have hfresh := not_mem_of_any_eq_false hany
      split
      · next hnil =>
        refine ⟨?_, fun _ ↦ h⟩
        rintro - ⟨-, refs, -, -, -, -, hrefs, hdup⟩
        rw [assignKeys, hnil] at hrefs
        cases hrefs
        exact hdup List.nodup_nil
      · split
        · next hlen =>
          refine ⟨?_, fun _ ↦ h⟩
          rintro - ⟨itemDict', refs, hdict', -, hlen', -⟩
          rw [hdict, Except.ok.injEq] at hdict'
          subst hdict'
          exact hlen hlen'
        · next hlen =>
          cases hcheck : checkKeys itemDict.keys (assignKeys r) with
          | error e =>
            refine ⟨?_, fun _ ↦ h⟩
            rintro - ⟨itemDict', refs, hdict', -, -, hcheck', -⟩
            rw [hdict, Except.ok.injEq] at hdict'
            subst hdict'
            rw [hcheck] at hcheck'
            cases hcheck'
          | ok _ =>
            obtain ⟨refs, hrefs, hlen', hall⟩ := checkKeys_ok hcheck
            have hlength : (assignKeys r).length = itemDict.keys.length := not_not.1 hlen
            simp only [Progression.append, Ref.validateOrder_list, hrefs]
            rw [agrees_appendKeys_iff h (ownIds_validateCollections hdict) hfresh
              (hlen'.trans hlength) hall]
            constructor
            · rintro hnodup ⟨-, refs', -, -, -, -, hrefs', hdup⟩
              rw [hrefs, Except.ok.injEq] at hrefs'
              exact hdup (hrefs' ▸ hnodup)
            · intro hnot
              by_contra hdup
              exact hnot ⟨itemDict, refs, hdict, hfresh, hlength, hcheck, hrefs, hdup⟩

/-! ## Set operators -/

theorem agrees_exclude_ofItems_iff (h : p.Agrees) (items : List α) :
    (p.exclude (.ofItems (items.filter fun i ↦ p.contains (.item i)))).1.Agrees ↔
      Unbroken p.order ((items.filter fun i ↦ p.contains (.item i)).map Observable.id) := by
  rw [agrees_exclude_iff h, filter_contains_ofItems, Ref.validateOrders_map_item]
  simp only [Except.ok.injEq, forall_eq']

theorem agrees_ixor_iff (h : p.Agrees) (other : Pile U α τ) :
    (p.ixor (some other)).1.Agrees ↔ ∀ items, other.values = .ok items →
      Unbroken p.order ((items.filter fun i ↦ p.contains (.item i)).map Observable.id) := by
  unfold ixor
  cases hitems : other.values with
  | error e => simpa [hitems] using h
  | ok items =>
    simp only [hitems, Except.ok.injEq, forall_eq']
    rw [← agrees_exclude_ofItems_iff h]
    split
    · next p' e heq => rw [heq]
    · next p' heq =>
      have hok := agrees_of_exclude_ok h (congrArg Prod.snd heq)
      exact ⟨fun _ ↦ hok, fun _ ↦ agrees_includeItem (by simpa only [heq] using hok) _⟩

variable {items : List α}

theorem ids_lookupAll (h : OwnIds d) (hitems : lookupAll d keys = .ok items) : items.map Observable.id = keys := by
  induction keys generalizing items with
  | nil =>
    cases hitems
    rfl
  | cons key keys ih =>
    rw [lookupAll] at hitems
    split at hitems
    · cases hitems
    · next a ha =>
      split at hitems
      · cases hitems
      · next rest hrest =>
        cases hitems
        rw [List.map_cons, ih hrest, h key a ha]

/-- What excluding some of a pile's own items takes off its order. -/
theorem sublist_of_excluded (h : p.Agrees) (hitems : p.values = .ok items) (drop : α → Bool)
    (hrefs : Ref.validateOrders ((Ref.ofItems (U := U) (items.filter drop)).toListType.filter p.contains) = .ok refs) :
    refs.Sublist p.order := by
  have hids : items.map Observable.id = p.order := ids_lookupAll h.own_ids hitems
  have hsub : ((Ref.ofItems (U := U) (items.filter drop)).toListType.filter p.contains).Sublist
      (items.map Ref.item) :=
    List.filter_sublist.trans (List.filter_sublist.map _)
  obtain ⟨kept, hkept, hmap⟩ := List.sublist_map_iff.1 hsub
  rw [hmap, Ref.validateOrders_map_item, Except.ok.injEq] at hrefs
  exact hids ▸ hrefs ▸ hkept.map _

theorem agrees_iand (h : p.Agrees) (other : Option (Pile U α τ)) : (p.iand other).1.Agrees := by
  unfold iand
  cases other with
  | none => exact h
  | some other =>
    obtain ⟨items, hitems⟩ := h.values_ok
    simp only [hitems]
    rw [agrees_exclude_iff h]
    intro refs hrefs
    have hsub := sublist_of_excluded h hitems _ hrefs
    exact unbroken_of_nodup (hsub.nodup h.nodup) fun u hu ↦ hsub.subset hu

/-! ## The round trip -/

theorem setEntries_of_not_mem {l : List (U × α)} (a : α) (h : u ∉ l.map Prod.fst) :
    OrderedDict.setEntries u a l = l ++ [(u, a)] := by
  induction l with
  | nil => rfl
  | cons entry rest ih =>
    obtain ⟨key, b⟩ := entry
    rw [List.map_cons, List.mem_cons, not_or] at h
    rw [OrderedDict.setEntries, if_neg fun heq ↦ h.1 heq.symm, ih h.2]
    rfl

/-- Items with distinct identifiers are stored in the order in which they are given. -/
theorem admitAll_items (hadmits : ∀ a ∈ items, admitItem itemType strictType (.item a : Ref U α) = .ok a)
    (acc : OrderedDict U α) (hnodup : (acc.keys ++ items.map Observable.id).Nodup) :
    ∃ d, admitAll itemType strictType (items.map Ref.item) acc = .ok d ∧
      d.entries = acc.entries ++ items.map fun a ↦ (Observable.id a, a) := by
  induction items generalizing acc with
  | nil => exact ⟨acc, rfl, (List.append_nil _).symm⟩
  | cons a rest ih =>
    rw [List.forall_mem_cons] at hadmits
    have hfresh : Observable.id a ∉ acc.keys := by
      intro hmem
      exact (List.nodup_append.1 hnodup).2.2 _ hmem _ List.mem_cons_self rfl
    have hentries : (acc.set (Observable.id a) a).entries = acc.entries ++ [(Observable.id a, a)] :=
      setEntries_of_not_mem a hfresh
    obtain ⟨d, hd, hdentries⟩ := ih hadmits.2 (acc.set (Observable.id a) a) (by
      rw [OrderedDict.keys_set_of_not_mem hfresh, List.append_assoc]
      exact hnodup)
    refine ⟨d, ?_, ?_⟩
    · rw [List.map_cons, admitAll, hadmits.1]
      exact hd
    · rw [hdentries, hentries, List.map_cons, List.append_assoc]
      rfl

theorem validateCollections_items (hadmits : ∀ a ∈ items, admitItem itemType strictType (.item a : Ref U α) = .ok a)
    (hnodup : (items.map (Observable.id (U := U))).Nodup) :
    ∃ d, validateCollections (.ofItems items) itemType strictType = .ok d ∧
      d.entries = items.map fun a ↦ (Observable.id a, a) := by
  obtain ⟨d, hd, hentries⟩ := admitAll_items hadmits OrderedDict.empty
    (by
      rw [OrderedDict.keys_empty, List.nil_append]
      exact hnodup)
  refine ⟨d, ?_, hentries⟩
  unfold validateCollections
  split
  · next hfalsy =>
    have hempty : items = [] := by simpa [Ref.falsy, Ref.ofItems] using hfalsy
    rw [hempty] at hd
    exact hd
  · exact hd

theorem validateCollections_values (h : OwnIds d) (strictType : Bool) :
    validateCollections (.ofItems d.values) (none : Option (List τ)) strictType = .ok d := by
  have hids : d.values.map (fun a ↦ (Observable.id a, a)) = d.entries := by
    rw [OrderedDict.values, List.map_map]
    conv_rhs => rw [← List.map_id d.entries]
    refine List.map_congr_left fun entry hentry ↦ ?_
    have hid := h entry.1 entry.2 ((OrderedDict.get?_eq_some_iff _ _ _).2 hentry)
    exact Prod.ext hid rfl
  have hkeys : d.values.map Observable.id = d.keys := by
    rw [OrderedDict.keys, ← hids, List.map_map]
    rfl
  have hadmits : ∀ a ∈ d.values,
      admitItem (none : Option (List τ)) strictType (.item a : Ref U α) = .ok a := fun _ _ ↦ rfl
  obtain ⟨d', hd', hentries⟩ := validateCollections_items hadmits (hkeys ▸ d.keys_nodup)
  have heq : d' = d := by
    apply OrderedDict.ext
    rw [hentries, hids]
  rw [hd', heq]

theorem checkOrder_of_agrees (h : p.Agrees) : checkOrder p.order p.collections = .ok p.order := by
  have hdedup : p.order.dedup = p.order := h.nodup.dedup
  have hlen : p.collections.keys.length = p.order.length := h.len_eq
  unfold checkOrder
  rw [hdedup, if_neg (by simp), if_neg (by simp [hlen]), if_pos]
  rw [List.all_eq_true]
  exact fun u hu ↦ decide_eq_true ((h.mem_iff u).1 hu)

/-- A sound pile comes back as it was, apart from its item types and its progression's own
identifier and name. -/
theorem fromDict_toDict (h : p.Agrees) (progressionId : U) :
    fromDict p.toDict progressionId = .ok { p with
      itemType := none
      progression := { id := progressionId, order := p.order, name := none } } := by
  unfold fromDict toDict
  simp only [validateCollections_values h.own_ids, checkOrder_of_agrees h]

/-! ## Runs -/

/-- The calls that change both sides alike: a pop by references, also inside `remove`, `exclude` and
`^=`, meets no present identifier after an absent or repeated one, a slice to be popped selects
nothing, at most one item is assigned to an index, and no key of a keyed assignment repeats. -/
def Balanced (p : Pile U α τ) : PileCall U α τ → Prop
  | .exclude item =>
    ∀ refs, Ref.validateOrders (item.toListType.filter p.contains) = .ok refs →
      Unbroken p.order refs
  | .pop (.slice s) _ sliceId =>
    ∀ pops, Progression.getSlice p.order s = .ok pops → ∀ u ∈ p.order, u ∈ pops ↔ u = sliceId
  | .pop (.ref r) _ _ => ∀ refs, r.validateOrder = .ok refs → Unbroken p.order refs
  | .remove (.ref r) =>
    p.contains r = true → ∀ refs, r.validateOrder = .ok refs → Unbroken p.order refs
  | .setitem (.int index) item => ¬ CrowdsIndex p index item
  | .setitem (.ref r) item => ¬ RepeatsKey p r item
  | .ixor (some other) =>
    ∀ items, other.values = .ok items →
      Unbroken p.order ((items.filter fun i ↦ p.contains (.item i)).map Observable.id)
  | _ => True

theorem agrees_exec_iff (h : p.Agrees) (c : PileCall U α τ) : (p.exec c).Agrees ↔ p.Balanced c := by
  cases c with
  | includeItem item => exact iff_of_true (agrees_includeItem h item) trivial
  | exclude item => exact agrees_exclude_iff h item
  | pop key hasDefault sliceId =>
    cases key with
    | int index => exact iff_of_true (agrees_popInt h index hasDefault sliceId) trivial
    | slice s => exact agrees_popSlice_iff h s hasDefault sliceId
    | ref r => exact agrees_popRef_iff h r hasDefault
  | remove item =>
    cases item with
    | int index => exact iff_of_true h trivial
    | slice s => exact iff_of_true h trivial
    | ref r => exact agrees_remove_iff h r
  | update other => exact iff_of_true (agrees_update h other) trivial
  | append item => exact iff_of_true (agrees_update h item) trivial
  | insert index item => exact iff_of_true (agrees_insert h index item) trivial
  | setitem key item =>
    cases key with
    | int index => exact agrees_setitemInt_iff h index item
    | slice s => exact iff_of_true (agrees_setitemSlice h s item) trivial
    | ref r => exact agrees_setitemRef_iff h r item
  | clear => exact iff_of_true (agrees_clear p) trivial
  | ior other => exact iff_of_true (agrees_ior h other) trivial
  | ixor other =>
    cases other with
    | none => exact iff_of_true h trivial
    | some other => exact agrees_ixor_iff h other
  | iand other => exact iff_of_true (agrees_iand h other) trivial

theorem checkOrder_ok {ids order : List U} {d : OrderedDict U α}
    (h : checkOrder ids d = .ok order) : order = ids ∧ ids.Nodup ∧ ∀ u, u ∈ ids ↔ u ∈ d := by
  unfold checkOrder at h
  split at h
  · cases h
  · next hdup =>
    split at h
    · cases h
    · next hlen =>
      split at h
      · next hall =>
        cases h
        have hnodup : ids.Nodup := by
          have hdedup := (List.dedup_sublist ids).eq_of_length (not_not.1 hdup)
          exact hdedup ▸ List.nodup_dedup ids
        have hmem : ∀ u ∈ ids, u ∈ d := by simpa using hall
        have hperm : ids.Perm d.keys := (hnodup.subperm hmem).perm_of_length_le (by omega)
        exact ⟨rfl, hnodup, fun u ↦ hperm.mem_iff⟩
      · cases h

theorem agrees_new {collections : Ref U α} {order : Option (List U)} {progressionId : U}
    (h : new collections itemType order strictType progressionId = .ok p) : p.Agrees := by
  unfold new at h
  split at h
  · cases h
  · next d hd =>
    have hown := ownIds_validateCollections hd
    split at h
    · cases h
    · next ids hids =>
      cases h
      have horder : ids.Nodup ∧ ∀ u, u ∈ ids ↔ u ∈ d := by
        unfold validateProgression at hids
        split at hids
        · cases hids
          exact ⟨d.keys_nodup, fun u ↦ Iff.rfl⟩
        · cases hids
          exact ⟨d.keys_nodup, fun u ↦ Iff.rfl⟩
        · obtain ⟨rfl, hnodup, hmem⟩ := checkOrder_ok hids
          exact ⟨hnodup, hmem⟩
      exact ⟨horder.1, horder.2, hown⟩

/-- What a user of a pile relies on: the representation invariant, an iteration that raises nothing,
and a length that counts the progression. -/
def Represented (p : Pile U α τ) : Prop :=
  p.Agrees ∧ (∃ items, p.values = .ok items) ∧ p.len = p.order.length

theorem represented_iff (p : Pile U α τ) : p.Represented ↔ p.Agrees :=
  ⟨fun h ↦ h.1, fun h ↦ ⟨h, h.values_ok, h.len_eq⟩⟩

/-- Every state of a run from a built pile is sound exactly when every call of the run is
balanced in the state in which it is made. -/
theorem represented_throughout_iff {collections : Ref U α} {itemType : Option (List τ)}
    {order : Option (List U)} {strictType : Bool} {progressionId : U} {p : Pile U α τ}
    (hbuilt : new collections itemType order strictType progressionId = .ok p)
    (calls : List (PileCall U α τ)) :
    Transition.Throughout exec Represented p calls ↔ Transition.Along exec Balanced p calls := by
  refine Transition.throughout_iff_along (I := Agrees) (fun q hq ↦ (represented_iff q).2 hq)
    (fun q c hq hc ↦ (agrees_exec_iff hq c).2 hc) (fun q c hq hc hr ↦ hc ?_) (agrees_new hbuilt)
  exact (agrees_exec_iff hq c).1 hr.1

/-- Two plain items in a pile without item types. -/
def twoItems : Pile Nat (Bare Nat) Unit where
  collections := .ofList [(0, ⟨0⟩), (1, ⟨1⟩)]
  itemType := none
  progression := { id := 9, order := [0, 1], name := none }
  strictType := false

theorem new_twoItems :
    new (.ofItems [⟨0⟩, ⟨1⟩] : Ref Nat (Bare Nat)) none none false 9 = .ok twoItems := rfl

theorem agrees_twoItems : twoItems.Agrees := agrees_new new_twoItems

/-- One item is popped by its identifier and the other by an index. -/
theorem represented_throughout_pops :
    Transition.Throughout exec Represented twoItems
      [.pop (.ref (.list [.uuid 1])) false 8, .pop (.int (-1)) false 8] := by
  refine (represented_throughout_iff new_twoItems _).2 ⟨?_, trivial, trivial⟩
  intro refs hrefs
  cases hrefs
  exact unbroken_of_nodup (by decide) (by decide)

/-- Popping `[a, x, b]` with `x` absent takes `a` and `b` off the progression but leaves `b`
stored. -/
theorem not_represented_pop_absent :
    ¬ Transition.Throughout exec Represented twoItems
      [.pop (.ref (.list [.uuid 0, .uuid 7, .uuid 1])) false 8] := by
  intro hthroughout
  have hagrees := ((represented_iff _).1 hthroughout.final).mem_iff 1
  revert hagrees
  decide

end Pile

end Lionagi.Protocols
