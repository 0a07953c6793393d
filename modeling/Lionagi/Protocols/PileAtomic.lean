import Lionagi.Protocols.PileInvariant

/-!
# Calls that raise

A call is atomic when, if it raises, the order and the collections are those from before the call.
Most mutators check their arguments first. A pop by references takes the references off the
progression before it looks them up, a popped slice is rebuilt as a pile after its items are gone,
and `^=` excludes before it validates what it includes.
-/

universe u v w

set_option linter.unusedSectionVars false

namespace Lionagi.Protocols

open PySequence

variable {U : Type u} {α : Type v} {τ : Type w} [Observable α U τ] [DecidableEq U] [DecidableEq τ]

namespace Pile

/-- The ordered identifiers and the stored items are the same. -/
def SameContents (p q : Pile U α τ) : Prop := q.order = p.order ∧ q.collections = p.collections

theorem SameContents.refl (p : Pile U α τ) : SameContents p p := ⟨rfl, rfl⟩

/-- If the call raised, it changed nothing. -/
def Atomic {β : Type*} (p : Pile U α τ) (result : Pile U α τ × Except PyError β) : Prop :=
  ∀ e, result.2 = .error e → SameContents p result.1

variable {p : Pile U α τ} {β : Type*}

theorem atomic_of_ok {result : Pile U α τ × Except PyError β} {b : β} (h : result.2 = .ok b) : Atomic p result := by
  intro e he
  rw [h] at he
  cases he

theorem atomic_unchanged (p : Pile U α τ) (result : Except PyError β) : Atomic p (p, result) :=
  fun _ _ ↦ SameContents.refl p

theorem atomic_map_iff {γ : Type*} (p : Pile U α τ) (result : Pile U α τ × Except PyError β) (f : β → γ) :
    Atomic p (result.1, result.2.map f) ↔ Atomic p result := by
  unfold Atomic
  cases result.2 <;> simp [Except.map]

/-! ## Popping -/

variable {keys order refs : List U}

theorem excludeRefs_eq_self (h : ∀ ref ∈ refs, ref ∉ order) : Progression.excludeRefs order refs = order := by
  unfold Progression.excludeRefs
  rw [List.filter_eq_self]
  intro u hu
  simpa using fun hmem ↦ h u hmem hu

variable {d : OrderedDict U α}

theorem popEach_eq_self (h : ∀ key ∈ keys, key ∉ d) : (popEach d keys).1 = d := by
  cases keys with
  | nil => rfl
  | cons key keys =>
    have hget : d.get? key = none := (OrderedDict.get?_eq_none_iff d key).2 (h key List.mem_cons_self)
    simp [popEach, hget]

variable {r value : Ref U α}

/-- A pop by references raises unless it names one or several distinct present items. -/
theorem popRef_ok_iff (h : p.Agrees) (hrefs : r.validateOrder = .ok refs) :
    (∃ popped, (p.popRef r false).2 = .ok popped) ↔
      refs ≠ [] ∧ refs.Nodup ∧ ∀ ref ∈ refs, ref ∈ p.order := by
  have hmem : (∀ ref ∈ refs, ref ∈ p.order) ↔ ∀ ref ∈ refs, ref ∈ p.collections :=
    forall₂_congr fun u _ ↦ h.mem_iff u
  rw [hmem, ← popEach_eq_ok_iff]
  simp only [popRef, hrefs, popKeys]
  cases hpop : popEach p.collections refs with
  | mk collections result =>
    cases result with
    | error e => simp [orDefault]
    | ok items =>
      have hlen : items = [] ↔ refs = [] := by
        cases refs with
        | nil =>
          simp only [popEach, Prod.mk.injEq, Except.ok.injEq] at hpop
          simp [← hpop.2]
        | cons ref refs =>
          rw [popEach] at hpop
          split at hpop
          · simp at hpop
          · split at hpop
            · simp at hpop
            · simp only [Prod.mk.injEq, Except.ok.injEq] at hpop
              simp [← hpop.2]
      cases items with
      | nil => simp [wrapPopped, orDefault, hlen.1 rfl]
      | cons a items =>
        have hne : refs ≠ [] := fun heq ↦ List.cons_ne_nil a items (hlen.2 heq)
        cases items <;> simp [wrapPopped, hne]

theorem sameContents_popRef_iff (h : p.Agrees) (hrefs : r.validateOrder = .ok refs) (hasDefault : Bool) :
    SameContents p (p.popRef r hasDefault).1 ↔ ∀ ref ∈ refs, ref ∉ p.order := by
  rw [popRef_fst hrefs]
  constructor
  · rintro ⟨horder, -⟩ ref href hmem
    change Progression.excludeRefs p.order refs = p.order at horder
    rw [← horder, Progression.mem_excludeRefs] at hmem
    exact hmem.2 href
  · intro habsent
    exact ⟨excludeRefs_eq_self habsent,
      popEach_eq_self fun ref href hmem ↦ habsent ref href ((h.mem_iff ref).2 hmem)⟩

theorem atomic_popRef_iff (h : p.Agrees) (r : Ref U α) :
    Atomic p (p.popRef r false) ↔ ∀ refs, r.validateOrder = .ok refs →
      (refs.Nodup ∧ ∀ ref ∈ refs, ref ∈ p.order) ∨ ∀ ref ∈ refs, ref ∉ p.order := by
  cases hrefs : r.validateOrder with
  | error e => simp [popRef, hrefs, atomic_unchanged]
  | ok refs =>
    simp only [Except.ok.injEq, forall_eq']
    constructor
    · intro hatomic
      by_cases habsent : ∀ ref ∈ refs, ref ∉ p.order
      · exact Or.inr habsent
      · refine Or.inl ?_
        cases hresult : (p.popRef r false).2 with
        | error e =>
          exact absurd ((sameContents_popRef_iff h hrefs false).1 (hatomic e hresult)) habsent
        | ok popped => exact ((popRef_ok_iff h hrefs).1 ⟨popped, hresult⟩).2
    · rintro (⟨hnodup, hall⟩ | habsent)
      · by_cases hne : refs = []
        · subst hne
          intro e _
          exact (sameContents_popRef_iff h hrefs false).2 (by simp)
        · obtain ⟨popped, hpopped⟩ := (popRef_ok_iff h hrefs).2 ⟨hne, hnodup, hall⟩
          exact atomic_of_ok hpopped
      · intro e _
        exact (sameContents_popRef_iff h hrefs false).2 habsent

theorem popKeys_default_ok (p : Pile U α τ) (order keys : List U)
    (wrap : List α → Except PyError (Popped U α)) :
    ∃ popped, (p.popKeys order keys wrap true).2 = .ok popped := by
  unfold popKeys
  split
  · exact ⟨_, rfl⟩
  · split
    · exact ⟨_, rfl⟩
    · exact ⟨_, rfl⟩

theorem popRef_default_ok (p : Pile U α τ) (r : Ref U α) :
    ∃ popped, (p.popRef r true).2 = .ok popped := by
  unfold popRef
  split
  · exact ⟨_, rfl⟩
  · exact popKeys_default_ok p _ _ _

theorem atomic_popInt (h : p.Agrees) (index : Int) (hasDefault : Bool) (sliceId : U) :
    Atomic p (p.pop (.int index) hasDefault sliceId) := by
  simp only [pop]
  split
  · exact atomic_unchanged p _
  · next uid hget =>
    obtain ⟨j, -, hold⟩ := getItem_eq_ok hget
    obtain ⟨a, ha⟩ := (OrderedDict.mem_iff_exists_get? p.collections uid).1
      ((h.mem_iff uid).1 (List.mem_of_getElem? hold))
    simp [popKeys, popEach, ha, wrapPopped, Atomic]

theorem lookupAll_eq_popEach (hnodup : keys.Nodup) : lookupAll d keys = (popEach d keys).2 := by
  induction keys generalizing d with
  | nil => rfl
  | cons key keys ih =>
    rw [List.nodup_cons] at hnodup
    have herase : lookupAll (d.erase key) keys = lookupAll d keys := by
      have hcongr : ∀ ks : List U, key ∉ ks → lookupAll (d.erase key) ks = lookupAll d ks := by
        intro ks hks
        induction ks with
        | nil => rfl
        | cons k ks ihk =>
          rw [List.mem_cons, not_or] at hks
          simp only [lookupAll, OrderedDict.get?_erase_of_ne d (Ne.symm hks.1), ihk hks.2]
      exact hcongr keys hnodup.1
    rw [lookupAll, popEach]
    cases hget : d.get? key with
    | none => rfl
    | some a =>
      simp only [← herase, ih hnodup.2]
      cases hpop : popEach (d.erase key) keys with
      | mk collections result => cases result <;> rfl

/-- A slice of several items is popped atomically when the new pile would accept them. -/
theorem atomic_popSlice_iff (h : p.Agrees) (s : Slice) (sliceId : U) :
    Atomic p (p.pop (.slice s) false sliceId) ↔
      ∀ pops, Progression.getSlice p.order s = .ok pops →
        ∀ items, lookupAll p.collections pops = .ok items → 1 < items.length →
          ∃ d, validateCollections (.ofItems items) p.itemType p.strictType = .ok d := by
  simp only [pop]
  cases hget : Progression.getSlice p.order s with
  | error e => simp [atomic_unchanged]
  | ok pops =>
    obtain ⟨hslice, hne⟩ := getSlice_eq_ok hget
    have hnodup := nodup_getSlice h.nodup hslice
    have hmem : ∀ u ∈ pops, u ∈ p.collections := fun u hu ↦
      (h.mem_iff u).1 (mem_of_mem_getSlice hslice hu)
    obtain ⟨items, hitems⟩ := (popEach_eq_ok_iff p.collections pops).2 ⟨hnodup, hmem⟩
    have hpop : popEach p.collections pops = ((popEach p.collections pops).1, .ok items) := by
      rw [← hitems]
    have hchanged : ¬ (popEach p.collections pops).1 = p.collections := by
      obtain ⟨u, hu⟩ := List.exists_mem_of_ne_nil pops hne
      intro heq
      have hpopped := (mem_popEach p.collections pops u).1 (heq.symm ▸ hmem u hu)
      exact hpopped.2 (by rw [poppedKeys_eq hnodup hmem]; exact hu)
    have hlookup : lookupAll p.collections pops = .ok items :=
      (lookupAll_eq_popEach hnodup).trans hitems
    simp only [Except.ok.injEq, forall_eq', hlookup]
    rw [popKeys, hpop]
    simp only [wrapSlice]
    cases items with
    | nil => exact absurd (ids_lookupAll h.own_ids hlookup).symm hne
    | cons a items =>
      cases items with
      | nil => simp [Atomic]
      | cons b items =>
        cases hvalidate : validateCollections (Ref.ofItems (a :: b :: items) : Ref U α)
            p.itemType p.strictType with
        | ok d => simp [Atomic, hvalidate]
        | error e => simp [Atomic, hvalidate, orDefault, SameContents, hchanged]

theorem contains_eq_true (h : p.contains r = true) :
    ∃ refs, r.validateOrder = .ok refs ∧ ∀ ref ∈ refs, ref ∈ p.order := by
  cases hrefs : r.validateOrder with
  | error e => simp [contains, Progression.contains, hrefs] at h
  | ok refs => exact ⟨refs, rfl, (Progression.contains_iff hrefs).1 h⟩

theorem validateOrders_of_contains {rs : List (Ref U α)} (h : ∀ r ∈ rs, p.contains r = true) :
    ∃ refs, Ref.validateOrders rs = .ok refs ∧ ∀ ref ∈ refs, ref ∈ p.order := by
  induction rs with
  | nil => exact ⟨[], rfl, by simp⟩
  | cons r rs ih =>
    rw [List.forall_mem_cons] at h
    obtain ⟨here, hhere, hmem⟩ := contains_eq_true h.1
    obtain ⟨rest, hrest, hmem'⟩ := ih h.2
    refine ⟨here ++ rest, by rw [Ref.validateOrders_cons, hhere, hrest]; rfl, fun ref href ↦ ?_⟩
    exact (List.mem_append.1 href).elim (hmem ref) (hmem' ref)

/-- References that are all present are popped atomically exactly when none repeats. -/
theorem atomic_popRef_iff_nodup (h : p.Agrees) (hrefs : r.validateOrder = .ok refs) (hmem : ∀ ref ∈ refs, ref ∈ p.order)
    :
    Atomic p (p.popRef r false) ↔ refs.Nodup := by
  rw [atomic_popRef_iff h, hrefs]
  simp only [Except.ok.injEq, forall_eq']
  constructor
  · rintro (⟨hnodup, -⟩ | habsent)
    · exact hnodup
    · have hnil : refs = [] :=
        List.eq_nil_iff_forall_not_mem.2 fun ref href ↦ habsent ref href (hmem ref href)
      exact hnil ▸ List.nodup_nil
  · exact fun hnodup ↦ Or.inl ⟨hnodup, hmem⟩

theorem atomic_remove_iff (h : p.Agrees) (r : Ref U α) :
    Atomic p (p.remove (.ref r)) ↔
      (p.contains r = true → ∀ refs, r.validateOrder = .ok refs → refs.Nodup) := by
  simp only [remove]
  split
  · next hcontains =>
    obtain ⟨refs, hrefs, hmem⟩ := contains_eq_true hcontains
    rw [atomic_map_iff, atomic_popRef_iff_nodup h hrefs hmem]
    simp [hcontains, hrefs]
  · next hcontains => simp [hcontains, atomic_unchanged]

theorem atomic_exclude_iff (h : p.Agrees) (item : Ref U α) :
    Atomic p (p.exclude item) ↔
      ∀ refs, Ref.validateOrders (item.toListType.filter p.contains) = .ok refs → refs.Nodup := by
  have hkept : ∀ r ∈ item.toListType.filter p.contains, p.contains r = true :=
    fun r hr ↦ (List.mem_filter.1 hr).2
  obtain ⟨refs, hrefs, hmem⟩ := validateOrders_of_contains hkept
  simp only [hrefs, Except.ok.injEq, forall_eq']
  unfold exclude
  split
  · next hnil =>
    rw [hnil] at hrefs
    cases hrefs
    simp [atomic_unchanged]
  · rw [atomic_map_iff, atomic_popRef_iff_nodup h ((Ref.validateOrder_list _).trans hrefs) hmem]

/-! ## Calls that check first -/

theorem atomic_includeItem (p : Pile U α τ) (item : Ref U α) : Atomic p (p.includeItem item) := by
  unfold includeItem
  split
  · exact atomic_unchanged p _
  · exact atomic_of_ok rfl

/-- Everything in the dictionary passes the admission check. -/
def Admitted (itemType : Option (List τ)) (strictType : Bool) (d : OrderedDict U α) : Prop :=
  ∀ u a, d.get? u = some a → admitItem itemType strictType (.item a : Ref U α) = .ok a

variable {itemType : Option (List τ)} {strictType : Bool}

theorem admitted_admitAll {items : List (Ref U α)} {acc : OrderedDict U α} (hacc : Admitted itemType strictType acc)
    (h : admitAll itemType strictType items acc = .ok d) : Admitted itemType strictType d := by
  induction items generalizing acc with
  | nil =>
    cases h
    exact hacc
  | cons i rest ih =>
    rw [admitAll] at h
    split at h
    · cases h
    · next a ha =>
      refine ih (fun u b hget ↦ ?_) h
      rw [OrderedDict.get?_set] at hget
      split at hget
      · cases hget
        exact admitItem_ok ha ▸ ha
      · exact hacc u b hget

theorem admitted_validateCollections (h : validateCollections value itemType strictType = .ok d) :
    Admitted itemType strictType d := by
  have hempty : Admitted itemType strictType (OrderedDict.empty : OrderedDict U α) := by
    simp [Admitted]
  unfold validateCollections at h
  split at h
  · cases h
    exact hempty
  · exact admitted_admitAll hempty h

theorem includeItem_ok {a : α} (h : admitItem p.itemType p.strictType (.item a : Ref U α) = .ok a) :
    ∃ q, p.includeItem (.item a) = (q, .ok ()) ∧ q.itemType = p.itemType ∧
      q.strictType = p.strictType := by
  have hvalidate : validateCollections (.item a : Ref U α) p.itemType p.strictType =
      .ok (OrderedDict.empty.set (Observable.id a) a) := by
    simp [validateCollections, Ref.falsy, Ref.toListType, admitAll, h]
  unfold includeItem
  rw [hvalidate]
  exact ⟨_, rfl, rfl, rfl⟩

theorem updateEach_ok {others : List (U × α)}
    (h : ∀ entry ∈ others, admitItem p.itemType p.strictType (.item entry.2 : Ref U α) = .ok entry.2) :
    (p.updateEach others).2 = .ok () := by
  induction others generalizing p with
  | nil => rfl
  | cons entry rest ih =>
    obtain ⟨i, other⟩ := entry
    rw [List.forall_mem_cons] at h
    rw [updateEach]
    split
    · exact ih h.2
    · obtain ⟨q, hq, htype, hstrict⟩ := includeItem_ok h.1
      rw [hq]
      exact ih (by rw [htype, hstrict]; exact h.2)

theorem atomic_update (p : Pile U α τ) (other : Ref U α) : Atomic p (p.update other) := by
  unfold update
  split
  · exact atomic_unchanged p _
  · next others hothers =>
    refine atomic_of_ok (updateEach_ok fun entry hentry ↦ ?_)
    exact admitted_validateCollections hothers entry.1 entry.2
      ((OrderedDict.get?_eq_some_iff others entry.1 entry.2).2 hentry)

theorem atomic_insert (p : Pile U α τ) (index : Int) (item : Ref U α) :
    Atomic p (p.insert index item) := by
  unfold insert
  split
  · exact atomic_unchanged p _
  · split
    · exact atomic_unchanged p _
    · simp only [Progression.insert, validateOrder_ofIds]
      exact atomic_of_ok rfl

theorem atomic_replaceAt {assigned : List U × Except PyError Unit} {itemDict : OrderedDict U α} (hnodup : keys.Nodup)
    (hmem : ∀ key ∈ keys, key ∈ p.collections) (hassigned : ∀ e, assigned.2 = .error e → assigned.1 = p.order) :
    Atomic p (replaceAt p (.ok keys) assigned itemDict) := by
  obtain ⟨order, result⟩ := assigned
  cases result with
  | error e => exact fun _ _ ↦ ⟨hassigned e rfl, rfl⟩
  | ok _ =>
    rw [replaceAt_ok order itemDict hnodup hmem]
    exact atomic_of_ok rfl

theorem atomic_replaceAt_error (p : Pile U α τ) (e : PyError)
    (assigned : List U × Except PyError Unit) (itemDict : OrderedDict U α) :
    Atomic p (replaceAt p (.error e) assigned itemDict) := by
  simpa only [replaceAt] using atomic_unchanged p _

theorem setItem_error {index : Int} {e : PyError} (h : (Progression.setItem order index value).2 = .error e) :
    (Progression.setItem order index value).1 = order := by
  unfold Progression.setItem at h ⊢
  split at h
  · rfl
  · rfl
  · split at h <;> cases h

theorem setSlice_error {s : Slice} {e : PyError} (h : (Progression.setSlice order s value).2 = .error e) :
    (Progression.setSlice order s value).1 = order := by
  unfold Progression.setSlice at h ⊢
  split at h
  · rfl
  · split at h
    · cases h
    · rfl

theorem atomic_setitem (h : p.Agrees) (key : Key U α) (item : Ref U α) : Atomic p (p.setitem key item) := by
  unfold setitem
  split
  · exact atomic_unchanged p _
  · split
    · exact atomic_unchanged p _
    · cases key with
      | int index =>
        cases hget : Progression.getItem p.order index with
        | error e =>
          simp only [hget]
          exact atomic_replaceAt_error p e _ _
        | ok uid =>
          obtain ⟨j, -, hold⟩ := getItem_eq_ok hget
          simp only [hget]
          refine atomic_replaceAt (List.nodup_singleton uid) ?_ fun e he ↦ setItem_error he
          simpa using (h.mem_iff uid).1 (List.mem_of_getElem? hold)
      | slice s =>
        cases hget : Progression.getSlice p.order s with
        | error e =>
          simp only [hget]
          exact atomic_replaceAt_error p e _ _
        | ok pops =>
          obtain ⟨hslice, -⟩ := getSlice_eq_ok hget
          simp only [hget]
          exact atomic_replaceAt (nodup_getSlice h.nodup hslice)
            (fun u hu ↦ (h.mem_iff u).1 (mem_of_mem_getSlice hslice hu)) fun e he ↦ setSlice_error he
      | ref r =>
        simp only
        split
        · exact atomic_unchanged p _
        · split
          · exact atomic_unchanged p _
          · cases hcheck : checkKeys _ (assignKeys r) with
            | error e => exact atomic_unchanged p _
            | ok _ =>
              obtain ⟨refs, hrefs, -⟩ := checkKeys_ok hcheck
              simp only [Progression.append, Ref.validateOrder_list, hrefs]
              exact atomic_of_ok rfl

theorem atomic_ior (p : Pile U α τ) (other : Option (Pile U α τ)) : Atomic p (p.ior other) := by
  cases other with
  | none => exact atomic_unchanged p _
  | some other =>
    unfold ior
    simp only
    split
    · exact atomic_unchanged p _
    · split
      · exact atomic_unchanged p _
      · exact atomic_includeItem p _

theorem atomic_iand (h : p.Agrees) (other : Option (Pile U α τ)) : Atomic p (p.iand other) := by
  cases other with
  | none => exact atomic_unchanged p _
  | some other =>
    obtain ⟨items, hitems⟩ := h.values_ok
    simp only [iand, hitems]
    rw [atomic_exclude_iff h]
    intro refs hrefs
    exact (sublist_of_excluded h hitems _ hrefs).nodup h.nodup

/-! ## `^=` -/

/-- The items of the other pile that `^=` excludes. -/
def shared (p : Pile U α τ) (items : List α) : List α :=
  items.filter fun i ↦ p.contains (.item i)

/-- The items of the other pile that `^=` includes. -/
def unshared (p : Pile U α τ) (items : List α) : List α :=
  items.filter fun i ↦ !(p.shared items).any fun x ↦ Observable.eq x i

theorem shared_ids_mem (p : Pile U α τ) (items : List α) :
    ∀ u ∈ (p.shared items).map Observable.id, u ∈ p.order := by
  intro u hu
  obtain ⟨a, ha, rfl⟩ := List.mem_map.1 hu
  simpa [contains, Progression.contains] using (List.mem_filter.1 ha).2

theorem exclude_shared (p : Pile U α τ) (items : List α) :
    p.exclude (.ofItems (p.shared items)) =
      if p.shared items = [] then (p, .ok ())
      else ((p.popRef (.ofItems (p.shared items)) false).1,
        (p.popRef (.ofItems (p.shared items)) false).2.map fun _ ↦ ()) := by
  have hfilter : (Ref.ofItems (U := U) (p.shared items)).toListType.filter p.contains =
      (p.shared items).map Ref.item :=
    filter_contains_ofItems p items
  unfold exclude
  rw [hfilter]
  cases hshared : p.shared items with
  | nil => rfl
  | cons a rest => rfl

theorem validateOrder_ofItems (items : List α) :
    (Ref.ofItems items : Ref U α).validateOrder = .ok (items.map Observable.id) :=
  Ref.validateOrders_map_item items

/-- Excluding the shared items succeeds exactly when their identifiers are distinct. -/
theorem exclude_shared_ok_iff (h : p.Agrees) (items : List α) :
    (p.exclude (.ofItems (p.shared items))).2 = .ok () ↔
      ((p.shared items).map Observable.id).Nodup := by
  rw [exclude_shared]
  split
  · next hnil => simp [hnil]
  · next hne =>
    have hok := popRef_ok_iff h (validateOrder_ofItems (p.shared items))
    have hiff : (∃ popped, (p.popRef (.ofItems (p.shared items)) false).2 = .ok popped) ↔
        ((p.shared items).map Observable.id).Nodup := by
      rw [hok]
      exact ⟨fun hall ↦ hall.2.1,
        fun hnodup ↦ ⟨by simpa using hne, hnodup, shared_ids_mem p items⟩⟩
    rw [← hiff]
    cases (p.popRef (.ofItems (p.shared items)) false).2 <;> simp [Except.map]

theorem exclude_shared_fields (p : Pile U α τ) (items : List α) :
    (p.exclude (.ofItems (p.shared items))).1.itemType = p.itemType ∧
      (p.exclude (.ofItems (p.shared items))).1.strictType = p.strictType := by
  rw [exclude_shared]
  split
  · exact ⟨rfl, rfl⟩
  · simp only [popRef_fst (validateOrder_ofItems (p.shared items))]
    exact ⟨rfl, rfl⟩

theorem sameContents_exclude_shared_iff (h : p.Agrees) (items : List α) :
    SameContents p (p.exclude (.ofItems (p.shared items))).1 ↔ p.shared items = [] := by
  rw [exclude_shared]
  split
  · next hnil => exact iff_of_true (SameContents.refl p) hnil
  · next hne =>
    rw [sameContents_popRef_iff h (validateOrder_ofItems (p.shared items))]
    refine iff_of_false (fun habsent ↦ ?_) hne
    obtain ⟨a, ha⟩ := List.exists_mem_of_ne_nil _ hne
    have hid : Observable.id a ∈ (p.shared items).map Observable.id := List.mem_map_of_mem ha
    exact habsent _ hid (shared_ids_mem p items _ hid)

theorem atomic_ixor_iff (h : p.Agrees) (other : Pile U α τ) :
    Atomic p (p.ixor (some other)) ↔ ∀ items, other.values = .ok items →
      ((p.shared items).map Observable.id).Nodup ∧ (p.shared items = [] ∨
        ∃ d, validateCollections (.ofItems (p.unshared items)) p.itemType p.strictType = .ok d) := by
  simp only [ixor]
  cases hitems : other.values with
  | error e => simp [atomic_unchanged]
  | ok items =>
    simp only [Except.ok.injEq, forall_eq']
    have hnodup_iff := exclude_shared_ok_iff h items
    have hsame_iff := sameContents_exclude_shared_iff h items
    obtain ⟨htype, hstrict⟩ := exclude_shared_fields p items
    cases hexclude : p.exclude (.ofItems (p.shared items)) with
    | mk p' result =>
      rw [hexclude] at hnodup_iff hsame_iff htype hstrict
      have hfilter : p.exclude (.ofItems (items.filter fun i ↦ p.contains (.item i))) =
          (p', result) := hexclude
      rw [hfilter]
      cases result with
      | error e =>
        have hdup : ¬ ((p.shared items).map Observable.id).Nodup := fun hnodup ↦ by
          cases hnodup_iff.2 hnodup
        refine iff_of_false (fun hatomic ↦ ?_) fun hall ↦ hdup hall.1
        exact hdup (by simp [hsame_iff.1 (hatomic e rfl)])
      | ok _ =>
        have hnodup := hnodup_iff.1 rfl
        change Atomic p (p'.includeItem (.ofItems (p.unshared items))) ↔ _
        simp only [includeItem]
        rw [htype, hstrict]
        cases hvalidate : validateCollections (.ofItems (p.unshared items) : Ref U α)
            p.itemType p.strictType with
        | error e =>
          simp only [hnodup, true_and, reduceCtorEq, exists_false, or_false]
          exact ⟨fun hatomic ↦ hsame_iff.1 (hatomic e rfl),
            fun hnil _ _ ↦ hsame_iff.2 hnil⟩
        | ok d => exact iff_of_true (atomic_of_ok rfl) ⟨hnodup, Or.inr ⟨d, rfl⟩⟩

/-! ## All mutators -/

/-- The calls that are all or nothing: a pop by references names distinct present items or no
present one, or has a default; a slice pops at most one item or items that a new pile admits; what
`remove`, `exclude` and `^=` pop has no repetition, and `^=` excludes nothing or admits the rest. -/
def AllOrNothing (p : Pile U α τ) : PileCall U α τ → Prop
  | .exclude item =>
    ∀ refs, Ref.validateOrders (item.toListType.filter p.contains) = .ok refs → refs.Nodup
  | .pop (.slice s) hasDefault _ =>
    hasDefault = true ∨ ∀ pops, Progression.getSlice p.order s = .ok pops →
      ∀ items, lookupAll p.collections pops = .ok items → 1 < items.length →
        ∃ d, validateCollections (.ofItems items) p.itemType p.strictType = .ok d
  | .pop (.ref r) hasDefault _ =>
    hasDefault = true ∨ ∀ refs, r.validateOrder = .ok refs →
      (refs.Nodup ∧ ∀ ref ∈ refs, ref ∈ p.order) ∨ ∀ ref ∈ refs, ref ∉ p.order
  | .remove (.ref r) =>
    p.contains r = true → ∀ refs, r.validateOrder = .ok refs → refs.Nodup
  | .ixor (some other) =>
    ∀ items, other.values = .ok items →
      ((p.shared items).map Observable.id).Nodup ∧ (p.shared items = [] ∨
        ∃ d, validateCollections (.ofItems (p.unshared items)) p.itemType p.strictType = .ok d)
  | _ => True

theorem atomic_pop_iff (h : p.Agrees) (key : Key U α) (hasDefault : Bool) (sliceId : U) :
    Atomic p (p.pop key hasDefault sliceId) ↔
      p.AllOrNothing (.pop key hasDefault sliceId) := by
  cases key with
  | int index => exact iff_of_true (atomic_popInt h index hasDefault sliceId) trivial
  | slice s =>
    cases hasDefault with
    | false => simpa [AllOrNothing] using atomic_popSlice_iff h s sliceId
    | true =>
      refine iff_of_true ?_ (Or.inl rfl)
      simp only [pop]
      split
      · exact atomic_unchanged p _
      · obtain ⟨popped, hpopped⟩ := popKeys_default_ok p _ _ _
        exact atomic_of_ok hpopped
  | ref r =>
    cases hasDefault with
    | false => simpa [AllOrNothing, pop] using atomic_popRef_iff h r
    | true =>
      obtain ⟨popped, hpopped⟩ := popRef_default_ok p r
      exact iff_of_true (atomic_of_ok hpopped) (Or.inl rfl)

/-- On a pile whose two sides agree, a mutator that raises leaves everything as it was exactly when
the call is all or nothing. -/
theorem call_atomic_iff (p : Pile U α τ) (h : p.Agrees) (c : PileCall U α τ) :
    (∀ e, (p.call c).2 = .error e → SameContents p (p.call c).1) ↔ p.AllOrNothing c := by
  change Atomic p (p.call c) ↔ p.AllOrNothing c
  cases c with
  | includeItem item => exact iff_of_true (atomic_includeItem p item) trivial
  | exclude item => exact atomic_exclude_iff h item
  | pop key hasDefault sliceId =>
    exact (atomic_map_iff p _ _).trans (atomic_pop_iff h key hasDefault sliceId)
  | remove item =>
    cases item with
    | int index => exact iff_of_true (atomic_unchanged p _) trivial
    | slice s => exact iff_of_true (atomic_unchanged p _) trivial
    | ref r => exact atomic_remove_iff h r
  | update other => exact iff_of_true (atomic_update p other) trivial
  | append item => exact iff_of_true (atomic_update p item) trivial
  | insert index item => exact iff_of_true (atomic_insert p index item) trivial
  | setitem key item => exact iff_of_true (atomic_setitem h key item) trivial
  | clear => exact iff_of_true (atomic_of_ok rfl) trivial
  | ior other => exact iff_of_true (atomic_ior p other) trivial
  | ixor other =>
    cases other with
    | none => exact iff_of_true (atomic_unchanged p _) trivial
    | some other => exact atomic_ixor_iff h other
  | iand other => exact iff_of_true (atomic_iand h other) trivial

/-- Removing one of two items that a pile holds is all or nothing. -/
theorem call_atomic_remove_one :
    twoItems.Agrees ∧
      ((∀ e, (twoItems.call (.remove (.ref (.uuid 1)))).2 = .error e →
        SameContents twoItems (twoItems.call (.remove (.ref (.uuid 1)))).1) ↔
        twoItems.AllOrNothing (.remove (.ref (.uuid 1)))) :=
  ⟨agrees_twoItems, call_atomic_iff twoItems agrees_twoItems (.remove (.ref (.uuid 1)))⟩

/-- `pop([a, x])` with `x` absent raises after `a` is gone from both sides. -/
theorem not_atomic_pop_absent :
    twoItems.Agrees ∧
      ¬ ∀ e, (twoItems.call (.pop (.ref (.list [.uuid 0, .uuid 7])) false 8)).2 = .error e →
        SameContents twoItems
          (twoItems.call (.pop (.ref (.list [.uuid 0, .uuid 7])) false 8)).1 :=
  ⟨agrees_twoItems, fun hatomic ↦
    absurd (hatomic .itemNotFoundError (by decide)).1 (by decide)⟩

end Pile

end Lionagi.Protocols
