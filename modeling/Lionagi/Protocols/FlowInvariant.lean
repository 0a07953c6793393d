import Lionagi.Protocols.Flow
import Lionagi.Protocols.PileAtomic

/-!
# Names and references in a flow

References stay within the items whatever is called. The name index is exact as long as no owned
progression is renamed behind it, by assignment or by adding another object under its identifier:
then names are unique, a name is refused exactly when it is taken, and the flow survives a round
trip. Any such rename leaves the index wrong, and `add_progression` trusts the index.
-/

universe u v w

set_option linter.unusedSectionVars false

namespace Lionagi.Protocols

variable {U : Type u} {α : Type v} {τ : Type w} [Observable α U τ] [DecidableEq U] [DecidableEq τ]

namespace Flow

theorem truthy_eq_some_iff {name : Option String} {n : String} :
    truthy name = some n ↔ name = some n ∧ n ≠ "" := by
  unfold truthy
  cases name with
  | none => simp
  | some m =>
    simp only [Option.filter_some, decide_eq_true_eq]
    constructor
    · intro h
      split at h
      · next hm =>
        cases h
        exact ⟨rfl, hm⟩
      · cases h
    · rintro ⟨heq, hn⟩
      cases heq
      rw [if_pos hn]

/-! ## Invariants -/

/-- What every call keeps: both piles are sound and progressions refer to items of the flow. -/
structure Grounded (f : Flow U α τ) : Prop where
  items : f.items.Agrees
  progressions : f.progressions.Agrees
  references : ∀ uid prog, f.owned uid = some prog → ∀ u ∈ prog.order, u ∈ f.items.order

/-- The index holds exactly the current names, the empty name apart. -/
structure Indexed (f : Flow U α τ) : Prop where
  hit : ∀ name uid, f.progressionNames.get? name = some uid → name ≠ "" →
    ∃ prog, f.owned uid = some prog ∧ prog.name = some name
  entry : ∀ uid prog name, f.owned uid = some prog → truthy prog.name = some name →
    f.progressionNames.get? name = some uid

variable {key name : String} {f g : Flow U α τ} {uid : U}

theorem Indexed.unique (h : f.Indexed) {uid' : U} {p q : Progression U} (hp : f.owned uid = some p)
    (hq : f.owned uid' = some q) (hpn : truthy p.name = some name) (hqn : truthy q.name = some name) : uid = uid' := by
  have hentry := (h.entry uid p name hp hpn).symm.trans (h.entry uid' q name hq hqn)
  exact Option.some.inj hentry

/-- Among non-empty names the index knows exactly those that are borne. -/
theorem Indexed.mem_iff (h : f.Indexed) (hname : name ≠ "") :
    name ∈ f.progressionNames ↔ ∃ uid prog, f.owned uid = some prog ∧ prog.name = some name := by
  rw [OrderedDict.mem_iff_exists_get?]
  constructor
  · rintro ⟨uid, hget⟩
    obtain ⟨prog, howned, hprog⟩ := h.hit name uid hget hname
    exact ⟨uid, prog, howned, hprog⟩
  · rintro ⟨uid, prog, howned, hprog⟩
    exact ⟨uid, h.entry uid prog name howned (truthy_eq_some_iff.2 ⟨hprog, hname⟩)⟩

variable {prog : Progression U}

theorem Grounded.id_eq (h : f.Grounded) (howned : f.owned uid = some prog) : prog.id = uid :=
  h.progressions.own_ids uid prog howned

theorem Grounded.mem_order (h : f.Grounded) (howned : f.owned uid = some prog) : uid ∈ f.progressions.order :=
  (h.progressions.mem_iff uid).2 (OrderedDict.mem_of_get? howned)

theorem Grounded.owned_of_mem (h : f.Grounded) (hmem : uid ∈ f.progressions.order) : ∃ prog, f.owned uid = some prog :=
  (OrderedDict.mem_iff_exists_get? _ uid).1 ((h.progressions.mem_iff uid).1 hmem)

/-! ## Lookup -/

variable {d : OrderedDict U (Progression U)} {ids : List U}

theorem scan_some (h : scan d key ids = .ok (some prog)) : ∃ uid, d.get? uid = some prog ∧ prog.name = some key := by
  induction ids with
  | nil => cases h
  | cons uid rest ih =>
    rw [scan] at h
    split at h
    · cases h
    · next p hp =>
      split at h
      · next hname =>
        cases h
        exact ⟨uid, hp, hname⟩
      · exact ih h

theorem scan_none (h : scan d key ids = .ok none) (hmem : uid ∈ ids) (hprog : d.get? uid = some prog) :
    prog.name ≠ some key := by
  induction ids with
  | nil => cases hmem
  | cons id rest ih =>
    rw [scan] at h
    split at h
    · cases h
    · next p hp =>
      split at h
      · cases h
      · next hname =>
        rcases List.mem_cons.1 hmem with rfl | hmem
        · rw [hprog, Option.some.injEq] at hp
          exact hp ▸ hname
        · exact ih h hmem

theorem scan_ok (h : ∀ uid ∈ ids, uid ∈ d) : ∃ found, scan d key ids = .ok found := by
  induction ids with
  | nil => exact ⟨none, rfl⟩
  | cons uid rest ih =>
    obtain ⟨p, hp⟩ := (OrderedDict.mem_iff_exists_get? d uid).1 (h uid List.mem_cons_self)
    rw [scan, hp]
    simp only
    split
    · exact ⟨some p, rfl⟩
    · exact ih fun id hid ↦ h id (List.mem_cons_of_mem _ hid)

variable [ParseUuid U]

theorem repairLookup_fields (f : Flow U α τ) (key : String) :
    (f.repairLookup key).1.items = f.items ∧
      (f.repairLookup key).1.progressions = f.progressions := by
  unfold repairLookup
  split
  · exact ⟨rfl, rfl⟩
  · exact ⟨rfl, rfl⟩
  · split <;> exact ⟨rfl, rfl⟩

theorem getProgression_fields (f : Flow U α τ) (key : ProgressionKey U) :
    (f.getProgression key).1.items = f.items ∧
      (f.getProgression key).1.progressions = f.progressions := by
  cases key with
  | str key =>
    simp only [getProgression]
    split
    · exact repairLookup_fields f key
    · split
      · exact repairLookup_fields _ key
      · split
        · exact ⟨rfl, rfl⟩
        · exact repairLookup_fields _ key
  | uuid uid => simp only [getProgression]; split <;> exact ⟨rfl, rfl⟩
  | object p => simp only [getProgression]; split <;> exact ⟨rfl, rfl⟩

theorem owned_repairLookup (h : (f.repairLookup key).2 = .ok prog) : ∃ uid, f.owned uid = some prog := by
  unfold repairLookup at h
  split at h
  · cases h
  · next found hscan =>
    cases h
    obtain ⟨uid, hget, -⟩ := scan_some hscan
    exact ⟨uid, hget⟩
  · split at h
    · cases h
    · next found hfound =>
      cases h
      obtain ⟨uid, -, howned⟩ := Option.bind_eq_some_iff.1 hfound
      exact ⟨uid, howned⟩

/-- What a lookup returns is an owned progression. -/
theorem owned_getProgression {key : ProgressionKey U} (h : (f.getProgression key).2 = .ok prog) :
    ∃ uid, f.owned uid = some prog := by
  cases key with
  | str key =>
    simp only [getProgression] at h
    split at h
    · exact owned_repairLookup h
    · next uid _ =>
      split at h
      · obtain ⟨uid', howned⟩ := owned_repairLookup h
        exact ⟨uid', howned⟩
      · next found hfound =>
        split at h
        · cases h
          exact ⟨uid, hfound⟩
        · obtain ⟨uid', howned⟩ := owned_repairLookup h
          exact ⟨uid', howned⟩
  | uuid uid =>
    simp only [getProgression] at h
    split at h
    · cases h
    · next found hfound =>
      cases h
      exact ⟨uid, hfound⟩
  | object p =>
    simp only [getProgression] at h
    split at h
    · cases h
    · next found hfound =>
      cases h
      exact ⟨p.id, hfound⟩

theorem repairLookup_finds (h : f.Grounded) (howned : f.owned uid = some prog) (hname : prog.name = some name) :
    ∃ uid' found, (f.repairLookup name).2 = .ok found ∧ f.owned uid' = some found ∧
      found.name = some name := by
  obtain ⟨found, hscan⟩ : ∃ found,
      scan f.progressions.collections name f.progressions.order = .ok found :=
    scan_ok fun u hu ↦ (h.progressions.mem_iff u).1 hu
  cases found with
  | none => exact absurd hname (scan_none hscan (h.mem_order howned) howned)
  | some found =>
    obtain ⟨uid', hget, hfound⟩ := scan_some hscan
    exact ⟨uid', found, by simp [repairLookup, hscan], hget, hfound⟩

/-- A current name is always found, however stale the index is. -/
theorem getProgression_finds (h : f.Grounded) (howned : f.owned uid = some prog) (hname : prog.name = some name) :
    ∃ uid' found, (f.getProgression (.str name)).2 = .ok found ∧ f.owned uid' = some found ∧
      found.name = some name := by
  have hstale : ∀ names, ({ f with progressionNames := names } : Flow U α τ).Grounded := fun _ ↦
    ⟨h.items, h.progressions, h.references⟩
  simp only [getProgression]
  split
  · exact repairLookup_finds h howned hname
  · next pid _ =>
    split
    · exact repairLookup_finds (hstale _) howned hname
    · next found hfound =>
      split
      · next heq => exact ⟨pid, found, rfl, hfound, heq⟩
      · exact repairLookup_finds (hstale _) howned hname

theorem Grounded.of_fields (h : f.Grounded) (hitems : g.items = f.items) (hprogs : g.progressions = f.progressions) :
    g.Grounded := by
  refine ⟨hitems ▸ h.items, hprogs ▸ h.progressions, fun uid prog howned ↦ ?_⟩
  rw [hitems]
  exact h.references uid prog (by rw [owned] at howned ⊢; rwa [hprogs] at howned)

theorem grounded_getProgression (h : f.Grounded) (key : ProgressionKey U) : (f.getProgression key).1.Grounded :=
  h.of_fields (getProgression_fields f key).1 (getProgression_fields f key).2

theorem indexed_repairLookup (hg : f.Grounded) (h : f.Indexed) (key : String) : (f.repairLookup key).1.Indexed := by
  unfold repairLookup
  split
  · exact h
  · next found hscan =>
    obtain ⟨uid, hget, hname⟩ := scan_some hscan
    have hid : found.id = uid := hg.id_eq hget
    refine ⟨fun name pid hentry hne ↦ ?_, fun pid prog name howned htruthy ↦ ?_⟩
    · change (f.progressionNames.set key found.id).get? name = some pid at hentry
      rw [OrderedDict.get?_set] at hentry
      split at hentry
      · next heq =>
        cases hentry
        exact ⟨found, hid ▸ hget, heq ▸ hname⟩
      · exact h.hit name pid hentry hne
    · change (f.progressionNames.set key found.id).get? name = some pid
      rw [OrderedDict.get?_set]
      split
      · next heq =>
        subst heq
        have hfound : truthy found.name = some name :=
          truthy_eq_some_iff.2 ⟨hname, (truthy_eq_some_iff.1 htruthy).2⟩
        rw [hid, h.unique hget howned hfound htruthy]
      · exact h.entry pid prog name howned htruthy
  · split <;> exact h

/-- Dropping an entry for the empty name. -/
theorem indexed_eraseEmpty (h : f.Indexed) :
    ({ f with progressionNames := f.progressionNames.erase "" } : Flow U α τ).Indexed := by
  refine ⟨fun name pid hentry hne ↦ ?_, fun pid prog name howned htruthy ↦ ?_⟩
  · change (f.progressionNames.erase "").get? name = some pid at hentry
    rw [OrderedDict.get?_erase_of_ne _ hne] at hentry
    exact h.hit name pid hentry hne
  · change (f.progressionNames.erase "").get? name = some pid
    rw [OrderedDict.get?_erase_of_ne _ (truthy_eq_some_iff.1 htruthy).2]
    exact h.entry pid prog name howned htruthy

theorem indexed_getProgression (hg : f.Grounded) (h : f.Indexed) (key : ProgressionKey U) :
    (f.getProgression key).1.Indexed := by
  cases key with
  | str key =>
    simp only [getProgression]
    split
    · exact indexed_repairLookup hg h key
    · next uid hentry =>
      -- An entry that is stale in an exact index can only be one for the empty name.
      have hstale : (∀ prog, f.owned uid = some prog → prog.name ≠ some key) →
          (repairLookup { f with progressionNames := f.progressionNames.erase key } key).1.Indexed := by
        intro hnot
        have hkey : key = "" := by
          by_contra hne
          obtain ⟨prog, howned, hname⟩ := h.hit key uid hentry hne
          exact hnot prog howned hname
        subst hkey
        exact indexed_repairLookup (f := { f with progressionNames := f.progressionNames.erase "" })
          ⟨hg.items, hg.progressions, hg.references⟩ (indexed_eraseEmpty h) ""
      split
      · next hnone => exact hstale fun prog howned ↦ by rw [hnone] at howned; cases howned
      · next prog hprog =>
        split
        · exact h
        · next hname =>
          refine hstale fun prog' howned ↦ ?_
          rw [hprog, Option.some.injEq] at howned
          exact howned ▸ hname
  | uuid uid => simp only [getProgression]; split <;> exact h
  | object p => simp only [getProgression]; split <;> exact h

/-! ## Adding a progression -/

theorem includeItem_progression (p : Pile U (Progression U) Unit) (prog : Progression U) :
    (p.includeItem (.item prog)).2 = .ok () ∧
      (p.includeItem (.item prog)).1.collections = p.collections.set prog.id prog := by
  have hadmits : Pile.admitItem p.itemType p.strictType (.item prog : Ref U (Progression U)) =
      .ok prog := by
    cases p.itemType with
    | none => rfl
    | some types =>
      cases types with
      | nil => rfl
      | cons t rest => simp [Pile.admitItem, Observable.issubclass, Observable.type]
  unfold Pile.includeItem
  have hvalidate : Pile.validateCollections (.item prog : Ref U (Progression U)) p.itemType
      p.strictType = .ok (OrderedDict.empty.set prog.id prog) := by
    simp only [Pile.validateCollections, Ref.falsy, Ref.toListType, Pile.admitAll, hadmits]
    rfl
  rw [hvalidate]
  exact ⟨rfl, rfl⟩

/-- The two checks of `add_progression` that let a progression through. -/
def Accepts (f : Flow U α τ) (prog : Progression U) : Prop :=
  (truthy prog.name).any (· ∈ f.progressionNames) = false ∧ missingItems f.items prog.order = false

theorem addProgression_of_not_accepts (h : ¬ f.Accepts prog) : (f.addProgression prog).1 = f := by
  unfold addProgression
  split
  · rfl
  · next hname =>
    split
    · rfl
    · next hmissing => exact absurd ⟨by simpa using hname, by simpa using hmissing⟩ h

theorem addProgression_of_accepts (h : f.Accepts prog) :
    (f.addProgression prog).1 = { f with
      progressions := (f.progressions.includeItem (.item prog)).1
      progressionNames := (truthy prog.name).elim f.progressionNames
        fun name ↦ f.progressionNames.set name prog.id } ∧ (f.addProgression prog).2 = .ok () := by
  obtain ⟨hok, -⟩ := includeItem_progression f.progressions prog
  unfold addProgression
  rw [h.1, h.2]
  cases hinclude : f.progressions.includeItem (.item prog) with
  | mk progressions result =>
    rw [hinclude] at hok
    simp only at hok
    subst hok
    cases truthy prog.name <;> exact ⟨rfl, rfl⟩

theorem owned_addProgression (h : f.Accepts prog) (uid : U) :
    (f.addProgression prog).1.owned uid = if uid = prog.id then some prog else f.owned uid := by
  rw [(addProgression_of_accepts h).1]
  change (f.progressions.includeItem (.item prog)).1.collections.get? uid = _
  rw [(includeItem_progression f.progressions prog).2, OrderedDict.get?_set]
  rfl

theorem names_addProgression (h : f.Accepts prog) (name : String) :
    (f.addProgression prog).1.progressionNames.get? name =
      if truthy prog.name = some name then some prog.id else f.progressionNames.get? name := by
  rw [(addProgression_of_accepts h).1]
  cases truthy prog.name with
  | none => rfl
  | some n =>
    change (f.progressionNames.set n prog.id).get? name = _
    rw [OrderedDict.get?_set]
    simp only [Option.some.injEq, eq_comm]

theorem grounded_addProgression (h : f.Grounded) (prog : Progression U) : (f.addProgression prog).1.Grounded := by
  by_cases haccepts : f.Accepts prog
  · refine ⟨?_, ?_, fun uid p howned u hu ↦ ?_⟩
    · rw [(addProgression_of_accepts haccepts).1]
      exact h.items
    · rw [(addProgression_of_accepts haccepts).1]
      exact Pile.agrees_includeItem h.progressions _
    · rw [owned_addProgression haccepts] at howned
      rw [(addProgression_of_accepts haccepts).1]
      split at howned
      · cases howned
        have hmissing := haccepts.2
        simp only [missingItems, List.any_eq_false, decide_eq_true_eq, not_not] at hmissing
        exact hmissing u hu
      · exact h.references uid p howned u hu
  · rw [addProgression_of_not_accepts haccepts]
    exact h

/-- A non-empty name is refused exactly when the index has it. -/
theorem addProgression_exists_iff (hname : truthy prog.name = some name) :
    (f.addProgression prog).2 = .error .itemExistsError ↔ name ∈ f.progressionNames := by
  constructor
  · intro h
    by_contra hnot
    have haccepts : (truthy prog.name).any (· ∈ f.progressionNames) = false := by
      simpa [hname] using hnot
    unfold addProgression at h
    rw [haccepts] at h
    simp only [Bool.false_eq_true, if_false] at h
    split at h
    · cases h
    · next hmissing =>
      have hok := (addProgression_of_accepts ⟨haccepts, by simpa using hmissing⟩).2
      unfold addProgression at hok
      rw [haccepts] at hok
      simp only [Bool.false_eq_true, if_false, hmissing] at hok
      rw [hok] at h
      cases h
  · intro hmem
    unfold addProgression
    rw [if_pos (by simpa [hname] using hmem)]

/-! ## Removing a progression -/

theorem owned_dropProgression (f : Flow U α τ) (uid u : U) :
    (f.dropProgression uid).1.owned u = if u = uid then none else f.owned u :=
  Pile.get?_popOne f.progressions uid u

theorem grounded_dropProgression (h : f.Grounded) (howned : f.owned uid = some prog) :
    (f.dropProgression uid).1.Grounded := by
  refine ⟨h.items, Pile.agrees_popOne h.progressions (h.mem_order howned), fun u p hp ↦ ?_⟩
  rw [owned_dropProgression] at hp
  split at hp
  · cases hp
  · exact h.references u p hp

theorem indexed_dropProgression (h : f.Indexed) (uid : U) : (f.dropProgression uid).1.Indexed := by
  refine ⟨fun name pid hentry hne ↦ ?_, fun pid p name hp htruthy ↦ ?_⟩
  · change (f.progressionNames.filter fun _ pid ↦ pid ≠ uid).get? name = some pid at hentry
    rw [OrderedDict.get?_filter_eq_some_iff] at hentry
    obtain ⟨p, hp, hname⟩ := h.hit name pid hentry.1 hne
    refine ⟨p, ?_, hname⟩
    rw [owned_dropProgression, if_neg (by simpa using hentry.2)]
    exact hp
  · rw [owned_dropProgression] at hp
    split at hp
    · cases hp
    · next hne =>
      change (f.progressionNames.filter fun _ pid ↦ pid ≠ uid).get? name = some pid
      rw [OrderedDict.get?_filter_eq_some_iff]
      exact ⟨h.entry pid p name hp htruthy, by simpa using hne⟩

/-- Removal is a lookup followed by dropping what it found. -/
theorem removeProgression_cases (f : Flow U α τ) (key : ProgressionKey U) :
    (f.removeProgression key).1 = (f.getProgression key).1 ∨
      ∃ uid prog, (f.getProgression key).1.owned uid = some prog ∧
        (prog.id = uid → (f.removeProgression key).1 =
          ((f.getProgression key).1.dropProgression uid).1) := by
  cases key with
  | str key =>
    cases hget : f.getProgression (.str key) with
    | mk f' result =>
      cases result with
      | error e => exact Or.inl (by simp [removeProgression, hget])
      | ok prog =>
        obtain ⟨uid, howned⟩ := owned_getProgression (congrArg Prod.snd hget)
        refine Or.inr ⟨uid, prog, ?_, fun hid ↦ by simp [removeProgression, hget, hid]⟩
        have hfields : f'.progressions = f.progressions := by
          simpa only [hget] using (getProgression_fields f (.str key)).2
        change f'.progressions.collections.get? uid = some prog
        rw [hfields]
        exact howned
  | uuid uid =>
    cases howned : f.owned uid with
    | none => exact Or.inl (by simp [removeProgression, getProgression, howned])
    | some prog =>
      refine Or.inr ⟨uid, prog, ?_, fun _ ↦ ?_⟩
      · simp [getProgression, howned]
      · simp [removeProgression, getProgression, howned]
  | object p =>
    cases howned : f.owned p.id with
    | none => exact Or.inl (by simp [removeProgression, getProgression, howned])
    | some prog =>
      refine Or.inr ⟨p.id, prog, ?_, fun _ ↦ ?_⟩
      · simp [getProgression, howned]
      · simp [removeProgression, getProgression, howned]

theorem grounded_removeProgression (h : f.Grounded) (key : ProgressionKey U) :
    (f.removeProgression key).1.Grounded := by
  have hget := grounded_getProgression h key
  rcases removeProgression_cases f key with heq | ⟨uid, prog, howned, heq⟩
  · rw [heq]
    exact hget
  · rw [heq (hget.id_eq howned)]
    exact grounded_dropProgression hget howned

theorem indexed_removeProgression (hg : f.Grounded) (h : f.Indexed) (key : ProgressionKey U) :
    (f.removeProgression key).1.Indexed := by
  have hget := indexed_getProgression hg h key
  rcases removeProgression_cases f key with heq | ⟨uid, prog, howned, heq⟩
  · rw [heq]
    exact hget
  · rw [heq ((grounded_getProgression hg key).id_eq howned)]
    exact indexed_dropProgression hget uid

/-! ## Changing progressions in place -/

theorem owned_modifyProgression (f : Flow U α τ) (uid : U)
    (change : Progression U → Progression U) (u : U) :
    (f.modifyProgression uid change).owned u =
      if u = uid then (f.owned u).map change else f.owned u :=
  OrderedDict.get?_modify f.progressions.collections uid u change

/-- The same index, and the same names at the same identifiers. -/
structure SameNames (f g : Flow U α τ) : Prop where
  index : g.progressionNames = f.progressionNames
  names : ∀ uid, (g.owned uid).map Progression.name = (f.owned uid).map Progression.name

theorem SameNames.refl (f : Flow U α τ) : SameNames f f := ⟨rfl, fun _ ↦ rfl⟩

theorem SameNames.trans {k : Flow U α τ} (h : SameNames f g) (h' : SameNames g k) : SameNames f k :=
  ⟨h'.index.trans h.index, fun uid ↦ (h'.names uid).trans (h.names uid)⟩

theorem SameNames.owned (h : SameNames f g) (howned : g.owned uid = some prog) :
    ∃ old, f.owned uid = some old ∧ old.name = prog.name := by
  have hname := h.names uid
  rw [howned, Option.map_some] at hname
  exact Option.map_eq_some_iff.1 hname.symm

theorem SameNames.symm (h : SameNames f g) : SameNames g f :=
  ⟨h.index.symm, fun uid ↦ (h.names uid).symm⟩

theorem SameNames.indexed (h : SameNames f g) (hf : f.Indexed) : g.Indexed := by
  refine ⟨fun name uid hentry hne ↦ ?_, fun uid prog name howned htruthy ↦ ?_⟩
  · rw [h.index] at hentry
    obtain ⟨prog, howned, hname⟩ := hf.hit name uid hentry hne
    obtain ⟨prog', howned', hname'⟩ := h.symm.owned howned
    exact ⟨prog', howned', hname'.trans hname⟩
  · obtain ⟨old, hold, hname⟩ := h.owned howned
    rw [h.index]
    exact hf.entry uid old name hold (hname ▸ htruthy)

theorem sameNames_modifyProgression (f : Flow U α τ) (uid : U)
    (change : Progression U → Progression U) (hname : ∀ prog, (change prog).name = prog.name) :
    SameNames f (f.modifyProgression uid change) := by
  refine ⟨rfl, fun u ↦ ?_⟩
  rw [owned_modifyProgression]
  split
  · rw [Option.map_map]
    exact congrArg (fun get ↦ (f.owned u).map get) (funext hname)
  · rfl

/-! ## Items -/

theorem resolveEach_spec (h : f.Grounded) (keys : List (ProgressionKey U)) :
    (f.resolveEach keys).1.Grounded ∧ (f.Indexed → (f.resolveEach keys).1.Indexed) := by
  induction keys generalizing f with
  | nil => exact ⟨h, id⟩
  | cons key rest ih =>
    have hget := grounded_getProgression h key
    obtain ⟨hground, hindex⟩ := ih hget
    have hindexed : f.Indexed → (f.getProgression key).1.Indexed := fun hf ↦
      indexed_getProgression h hf key
    rw [resolveEach]
    cases hresult : f.getProgression key with
    | mk f' result =>
      rw [hresult] at hget hground hindex hindexed
      cases result with
      | error e => exact ⟨hget, hindexed⟩
      | ok prog =>
        simp only at hground hindex hindexed ⊢
        cases hrest : f'.resolveEach rest with
        | mk f'' result =>
          rw [hrest] at hground hindex
          cases result <;> exact ⟨hground, fun hf ↦ hindex (hindexed hf)⟩

variable {itemType : Option (List τ)} {strictType : Bool}

theorem admitAll_ok_items {xs : List (Ref U α)} {acc d : OrderedDict U α}
    (h : Pile.admitAll itemType strictType xs acc = .ok d) :
    (∀ u ∈ acc, u ∈ d) ∧ ∃ items : List α, xs = items.map Ref.item ∧
      ∀ a ∈ items, Observable.id a ∈ d := by
  induction xs generalizing acc with
  | nil =>
    cases h
    exact ⟨fun _ ↦ id, [], rfl, by simp⟩
  | cons x xs ih =>
    rw [Pile.admitAll] at h
    split at h
    · cases h
    · next a ha =>
      obtain ⟨hacc, items, hxs, hitems⟩ := ih h
      have hx := Pile.admitItem_ok ha
      refine ⟨fun u hu ↦ hacc u ((OrderedDict.mem_set _ _ _ _).2 (Or.inr hu)), a :: items, ?_, ?_⟩
      · rw [hx, hxs, List.map_cons]
      · rw [List.forall_mem_cons]
        exact ⟨hacc _ ((OrderedDict.mem_set _ _ _ _).2 (Or.inl rfl)), hitems⟩

/-- The references of an admitted argument are those of admitted items. -/
theorem validated_refs {item : Ref U α} {d : OrderedDict U α}
    (h : Pile.validateCollections item itemType strictType = .ok d) {refs : List U}
    (hrefs : item.validateOrder = .ok refs) : ∀ u ∈ refs, u ∈ d := by
  have hlist : ∀ xs : List (Ref U α), Pile.admitAll itemType strictType xs OrderedDict.empty = .ok d →
      ∀ refs, Ref.validateOrders xs = .ok refs → ∀ u ∈ refs, u ∈ d := by
    intro xs hxs refs hrefs u hu
    obtain ⟨-, items, rfl, hitems⟩ := admitAll_ok_items hxs
    rw [Ref.validateOrders_map_item, Except.ok.injEq] at hrefs
    rw [← hrefs] at hu
    obtain ⟨a, ha, rfl⟩ := List.mem_map.1 hu
    exact hitems a ha
  have hseq : ∀ xs : List (Ref U α), (if xs.isEmpty = true then Except.ok OrderedDict.empty
      else Pile.admitAll itemType strictType xs OrderedDict.empty) = .ok d →
      Pile.admitAll itemType strictType xs OrderedDict.empty = .ok d := by
    intro xs hxs
    cases xs with
    | nil => exact hxs
    | cons x xs => exact hxs
  cases item with
  | none =>
    cases hrefs
    simp
  | item a => exact hlist [.item a] h refs (by cases hrefs; rfl)
  | uuid u => exact hlist [.uuid u] h refs (by cases hrefs; rfl)
  | str parsed =>
    cases parsed with
    | none => cases hrefs
    | some u => exact hlist [.uuid u] h refs (by cases hrefs; rfl)
  | list xs => exact hlist xs (hseq xs h) refs hrefs
  | tuple xs => exact hlist xs (hseq xs h) refs hrefs
  | other truthy => cases hrefs

theorem appendEach_spec (h : f.Grounded) {item : Ref U α}
    (hitem : ∀ refs, item.validateOrder = .ok refs → ∀ u ∈ refs, u ∈ f.items.order) (uids : List U) :
    (f.appendEach item uids).1.Grounded ∧ SameNames f (f.appendEach item uids).1 := by
  induction uids generalizing f with
  | nil => exact ⟨h, SameNames.refl f⟩
  | cons uid rest ih =>
    rw [appendEach]
    cases hrefs : item.validateOrder with
    | error e => exact ⟨h, SameNames.refl f⟩
    | ok refs =>
      have hsame := sameNames_modifyProgression f uid
        (fun prog ↦ { prog with order := prog.order ++ refs }) fun _ ↦ rfl
      have hground : (f.modifyProgression uid fun prog ↦
          { prog with order := prog.order ++ refs }).Grounded := by
        refine ⟨h.items, h.progressions.modify uid fun _ ↦ rfl,
          fun pid prog howned u hu ↦ ?_⟩
        rw [owned_modifyProgression] at howned
        split at howned
        · obtain ⟨old, hold, rfl⟩ := Option.map_eq_some_iff.1 howned
          rcases List.mem_append.1 hu with hu | hu
          · exact h.references pid old hold u hu
          · exact hitem refs hrefs u hu
        · exact h.references pid prog howned u hu
      obtain ⟨hground', hsame'⟩ := ih hground hitem
      exact ⟨hground', hsame.trans hsame'⟩

theorem addItem_spec (h : f.Grounded) (item : Ref U α) (progressions : List (ProgressionKey U)) :
    (f.addItem item progressions).1.Grounded ∧
      (f.Indexed → (f.addItem item progressions).1.Indexed) := by
  obtain ⟨hground, hindex⟩ := resolveEach_spec h progressions
  unfold addItem
  cases hresolve : f.resolveEach progressions with
  | mk f' result =>
    rw [hresolve] at hground hindex
    cases result with
    | error e => exact ⟨hground, hindex⟩
    | ok resolved =>
      have hitems := Pile.agrees_includeItem hground.items item
      have hmono : ∀ u ∈ f'.items.order, u ∈ (f'.items.includeItem item).1.order := by
        intro u hu
        unfold Pile.includeItem
        split
        · exact hu
        · next d _ =>
          change u ∈ (Progression.includeItem f'.items.order (.ofIds d.keys : Ref U α)).1
          rw [Progression.includeItem_of_validate (Pile.validateOrder_ofIds d.keys),
            Progression.mem_includeRefs]
          exact Or.inl hu
      have hincluded : ({ f' with items := (f'.items.includeItem item).1 } : Flow U α τ).Grounded :=
        ⟨hitems, hground.progressions, fun uid prog howned u hu ↦
          hmono u (hground.references uid prog howned u hu)⟩
      simp only
      cases hinclude : f'.items.includeItem item with
      | mk items result =>
        rw [hinclude] at hincluded
        cases result with
        | error e => exact ⟨hincluded, fun hf ↦ ⟨(hindex hf).hit, (hindex hf).entry⟩⟩
        | ok _ =>
          have hrefs : ∀ refs, item.validateOrder = .ok refs → ∀ u ∈ refs, u ∈ items.order := by
            intro refs hrefs u hu
            unfold Pile.includeItem at hinclude
            split at hinclude
            · cases hinclude
            · next d hd =>
              cases hinclude
              change u ∈ (Progression.includeItem f'.items.order (.ofIds d.keys : Ref U α)).1
              rw [Progression.includeItem_of_validate (Pile.validateOrder_ofIds d.keys),
                Progression.mem_includeRefs]
              exact Or.inr (validated_refs hd hrefs u hu)
          obtain ⟨hground', hsame⟩ := appendEach_spec hincluded hrefs resolved
          exact ⟨hground', fun hf ↦ hsame.indexed ⟨(hindex hf).hit, (hindex hf).entry⟩⟩

theorem excludeFrom_order (uid : U) (prog : Progression U) (u : U) :
    u ∈ (excludeFrom (α := α) uid prog).order ↔ u ∈ prog.order ∧ u ≠ uid := by
  unfold excludeFrom
  have hcontains : Progression.contains prog.order (.uuid uid : Ref U α) = true ↔
      ∀ ref ∈ [uid], ref ∈ prog.order :=
    Progression.contains_iff (Ref.validateOrder_uuid uid)
  simp only [List.mem_singleton, forall_eq] at hcontains
  split
  · rw [Progression.exclude_of_validate (Ref.validateOrder_uuid uid), Progression.mem_excludeRefs,
      List.mem_singleton]
  · next hnot =>
    rw [hcontains] at hnot
    exact ⟨fun hu ↦ ⟨hu, fun heq ↦ hnot (heq ▸ hu)⟩, fun h ↦ h.1⟩

theorem excludeFrom_name (uid : U) (prog : Progression U) :
    (excludeFrom (α := α) uid prog).name = prog.name ∧
      (excludeFrom (α := α) uid prog).id = prog.id := by
  unfold excludeFrom
  split <;> exact ⟨rfl, rfl⟩

/-- Excluding an identifier from progressions leaves it in none of them. -/
theorem excludeEach_spec (h : f.Grounded) (uid : U) {pids : List U}
    (hpids : ∀ pid ∈ pids, ∃ prog, f.owned pid = some prog) :
    (f.excludeEach uid pids).2 = .ok () ∧ (f.excludeEach uid pids).1.items = f.items ∧
      (f.excludeEach uid pids).1.Grounded ∧ SameNames f (f.excludeEach uid pids).1 ∧
      ∀ pid prog, (f.excludeEach uid pids).1.owned pid = some prog →
        (pid ∈ pids → uid ∉ prog.order) ∧
          ∃ old, f.owned pid = some old ∧ ∀ u ∈ prog.order, u ∈ old.order := by
  induction pids generalizing f with
  | nil =>
    exact ⟨rfl, rfl, h, SameNames.refl f, fun pid prog howned ↦
      ⟨fun hmem ↦ absurd hmem List.not_mem_nil, prog, howned, fun _ ↦ id⟩⟩
  | cons pid rest ih =>
    obtain ⟨prog, hprog⟩ := hpids pid List.mem_cons_self
    rw [excludeEach, hprog]
    have hsame := sameNames_modifyProgression f pid (excludeFrom (α := α) uid)
      fun p ↦ (excludeFrom_name uid p).1
    have howned : ∀ {q p}, (f.modifyProgression pid (excludeFrom (α := α) uid)).owned q = some p →
        (q = pid → uid ∉ p.order) ∧ ∃ old, f.owned q = some old ∧ ∀ u ∈ p.order, u ∈ old.order := by
      intro q p hq
      rw [owned_modifyProgression] at hq
      split at hq
      · obtain ⟨old, hold, rfl⟩ := Option.map_eq_some_iff.1 hq
        exact ⟨fun _ hmem ↦ ((excludeFrom_order uid old uid).1 hmem).2 rfl, old, hold,
          fun u hu ↦ ((excludeFrom_order uid old u).1 hu).1⟩
      · next hne => exact ⟨fun heq ↦ absurd heq hne, p, hq, fun _ ↦ id⟩
    have hground : (f.modifyProgression pid (excludeFrom (α := α) uid)).Grounded := by
      refine ⟨h.items, h.progressions.modify pid
        fun p ↦ (excludeFrom_name uid p).2, fun q p hq u hu ↦ ?_⟩
      obtain ⟨-, old, hold, hsub⟩ := howned hq
      exact h.references q old hold u (hsub u hu)
    have hrest : ∀ q ∈ rest, ∃ p, (f.modifyProgression pid (excludeFrom (α := α) uid)).owned q =
        some p := by
      intro q hq
      obtain ⟨p, hp⟩ := hpids q (List.mem_cons_of_mem _ hq)
      rw [owned_modifyProgression, hp]
      split <;> exact ⟨_, rfl⟩
    obtain ⟨hok, hitems, hground', hsame', hall⟩ := ih hground hrest
    refine ⟨hok, hitems, hground', hsame.trans hsame', fun q p hq ↦ ?_⟩
    obtain ⟨hgone, mid, hmid, hsub⟩ := hall q p hq
    obtain ⟨hgone', old, hold, hsub'⟩ := howned hmid
    refine ⟨fun hmem ↦ ?_, old, hold, fun u hu ↦ hsub' u (hsub u hu)⟩
    rcases List.mem_cons.1 hmem with heq | hmem
    · exact fun hu ↦ hgone' heq (hsub uid hu)
    · exact hgone hmem

theorem removeItem_spec (h : f.Grounded) (itemId : Ref U α) :
    (f.removeItem itemId).1.Grounded ∧ SameNames f (f.removeItem itemId).1 := by
  unfold removeItem
  cases itemId.getId with
  | error e => exact ⟨h, SameNames.refl f⟩
  | ok uid =>
    obtain ⟨hok, hitems, hground, hsame, hall⟩ :=
      excludeEach_spec h uid fun pid hpid ↦ h.owned_of_mem hpid
    simp only
    cases hexclude : f.excludeEach uid f.progressions.order with
    | mk f' result =>
      rw [hexclude] at hok hitems hground hsame hall
      simp only at hok
      subst hok
      have hgone : ∀ pid prog, f'.owned pid = some prog → uid ∉ prog.order := by
        intro pid prog howned
        obtain ⟨hgone, old, hold, -⟩ := hall pid prog howned
        exact hgone (h.mem_order hold)
      refine ⟨⟨?_, hground.progressions, fun pid prog howned u hu ↦ ?_⟩, hsame.index, hsame.names⟩
      · by_cases hmem : uid ∈ f'.items.order
        · exact Pile.agrees_popOne hground.items hmem
        · have hunbroken : Pile.Unbroken f'.items.order [uid] := by
            rw [Pile.unbroken_cons_iff [] hmem]
            exact fun u hu ↦ absurd hu List.not_mem_nil
          refine (Pile.agrees_popRef_iff hground.items (.uuid uid) false).2 fun refs hrefs ↦ ?_
          cases hrefs
          exact hunbroken
      · have huid : u ≠ uid := fun heq ↦ hgone pid prog howned (heq ▸ hu)
        have hmem := hground.references pid prog howned u hu
        exact (Pile.mem_order_popOne f'.items uid u).2 ⟨hmem, huid⟩

theorem grounded_clear (f : Flow U α τ) : f.clear.Grounded := by
  refine ⟨Pile.agrees_clear f.items, Pile.agrees_clear f.progressions, fun uid prog howned ↦ ?_⟩
  change OrderedDict.empty.get? uid = some prog at howned
  simp at howned

theorem indexed_clear (f : Flow U α τ) : f.clear.Indexed := by
  refine ⟨fun name uid hentry ↦ ?_, fun uid prog name howned ↦ ?_⟩
  · change OrderedDict.empty.get? name = some uid at hentry
    simp at hentry
  · change OrderedDict.empty.get? uid = some prog at howned
    simp at howned

theorem grounded_setName (h : f.Grounded) (uid : U) (name : Option String) :
    (f.modifyProgression uid fun prog ↦ { prog with name }).Grounded := by
  refine ⟨h.items, h.progressions.modify uid fun _ ↦ rfl,
    fun pid prog howned u hu ↦ ?_⟩
  rw [owned_modifyProgression] at howned
  split at howned
  · obtain ⟨old, hold, rfl⟩ := Option.map_eq_some_iff.1 howned
    exact h.references pid old hold u hu
  · exact h.references pid prog howned u hu

/-- Whatever is called, the piles stay sound and the references within the items. -/
theorem grounded_exec (h : f.Grounded) (c : FlowCall U α) : (f.exec c).Grounded := by
  cases c with
  | addProgression progression => exact grounded_addProgression h progression
  | removeProgression key => exact grounded_removeProgression h key
  | getProgression key => exact grounded_getProgression h key
  | addItem item progressions => exact (addItem_spec h item progressions).1
  | removeItem itemId => exact (removeItem_spec h itemId).1
  | clear => exact grounded_clear f
  | setName uid name => exact grounded_setName h uid name

/-! ## Construction and the round trip -/

variable {items : Pile U α τ} {progs : List (Progression U)}

theorem references_of_validate :
    validateReferentialIntegrity items progs = .ok () ↔
      ∀ prog ∈ progs, ∀ u ∈ prog.order, u ∈ items.order := by
  induction progs with
  | nil => simp [validateReferentialIntegrity]
  | cons prog rest ih =>
    rw [validateReferentialIntegrity, List.forall_mem_cons, ← ih]
    split
    · next hmissing =>
      simp only [missingItems, List.any_eq_true, decide_eq_true_eq] at hmissing
      obtain ⟨u, hu, hnot⟩ := hmissing
      simp only [reduceCtorEq, false_iff, not_and]
      exact fun hall ↦ absurd (hall u hu) hnot
    · next hmissing =>
      simp only [missingItems, List.any_eq_true, decide_eq_true_eq, not_exists, not_and,
        not_not] at hmissing
      simp only [iff_and_self]
      exact fun _ ↦ hmissing

/-- A successful indexing has the entries it started from and one for each non-empty name. -/
theorem indexProgressionNames_ok {acc names : OrderedDict String U} (h : indexProgressionNames progs acc = .ok names) :
    (∀ n uid, acc.get? n = some uid → names.get? n = some uid) ∧
      (∀ prog ∈ progs, ∀ n, truthy prog.name = some n → names.get? n = some prog.id) ∧
      ∀ n uid, names.get? n = some uid → acc.get? n = some uid ∨
        ∃ prog ∈ progs, truthy prog.name = some n ∧ prog.id = uid := by
  induction progs generalizing acc with
  | nil =>
    cases h
    refine ⟨fun _ _ ↦ id, fun prog hprog ↦ ?_, fun _ _ ↦ Or.inl⟩
    cases hprog
  | cons prog rest ih =>
    rw [indexProgressionNames] at h
    split at h
    · next hnone =>
      obtain ⟨hkeep, hentry, hback⟩ := ih h
      refine ⟨hkeep, ?_, fun n uid hget ↦ (hback n uid hget).imp_right ?_⟩
      · rw [List.forall_mem_cons]
        refine ⟨fun n hn ↦ ?_, hentry⟩
        rw [hnone] at hn
        cases hn
      · rintro ⟨p, hp, hpn, hid⟩
        exact ⟨p, List.mem_cons_of_mem _ hp, hpn, hid⟩
    · next name hname =>
      split at h
      · cases h
      · next hfresh =>
        obtain ⟨hkeep, hentry, hback⟩ := ih h
        refine ⟨fun n uid hget ↦ hkeep n uid ?_, ?_, fun n uid hget ↦ ?_⟩
        · have hne : n ≠ name := by
            rintro rfl
            exact hfresh (OrderedDict.mem_of_get? hget)
          rw [OrderedDict.get?_set_of_ne _ hne]
          exact hget
        · rw [List.forall_mem_cons]
          refine ⟨fun n hn ↦ ?_, hentry⟩
          rw [hname, Option.some.injEq] at hn
          exact hn ▸ hkeep name prog.id (OrderedDict.get?_set_self _ _ _)
        · rcases hback n uid hget with hacc | ⟨p, hp, hpn, hid⟩
          · rw [OrderedDict.get?_set] at hacc
            split at hacc
            · next heq =>
              exact Or.inr ⟨prog, List.mem_cons_self, heq ▸ hname, Option.some.inj hacc⟩
            · exact Or.inl hacc
          · exact Or.inr ⟨p, List.mem_cons_of_mem _ hp, hpn, hid⟩

/-- Indexing succeeds when no non-empty name is taken twice. -/
theorem indexProgressionNames_total (acc : OrderedDict String U)
    (hfresh : ∀ prog ∈ progs, ∀ n, truthy prog.name = some n → n ∉ acc)
    (hpairwise : progs.Pairwise fun p q ↦ ∀ n, truthy p.name = some n → truthy q.name ≠ some n) :
    ∃ names, indexProgressionNames progs acc = .ok names := by
  induction progs generalizing acc with
  | nil => exact ⟨acc, rfl⟩
  | cons prog rest ih =>
    rw [List.forall_mem_cons] at hfresh
    rw [List.pairwise_cons] at hpairwise
    rw [indexProgressionNames]
    split
    · exact ih acc hfresh.2 hpairwise.2
    · next name hname =>
      rw [if_neg (hfresh.1 name hname)]
      refine ih _ (fun q hq n hn ↦ ?_) hpairwise.2
      rw [OrderedDict.mem_set, not_or]
      refine ⟨fun heq ↦ ?_, hfresh.2 q hq n hn⟩
      exact hpairwise.1 q hq name hname (heq ▸ hn)

theorem mem_values_iff {p : Pile U (Progression U) Unit} (h : p.Agrees) (hprogs : p.values = .ok progs)
    (prog : Progression U) : prog ∈ progs ↔ ∃ uid, p.collections.get? uid = some prog := by
  have hlookup : ∀ {keys : List U} {progs : List (Progression U)},
      Pile.lookupAll p.collections keys = .ok progs →
        (prog ∈ progs ↔ ∃ uid ∈ keys, p.collections.get? uid = some prog) := by
    intro keys
    induction keys with
    | nil =>
      intro progs hprogs
      cases hprogs
      simp
    | cons key keys ih =>
      intro progs hprogs
      rw [Pile.lookupAll] at hprogs
      split at hprogs
      · cases hprogs
      · next a ha =>
        split at hprogs
        · cases hprogs
        · next rest hrest =>
          cases hprogs
          rw [List.mem_cons, ih hrest]
          constructor
          · rintro (rfl | ⟨uid, huid, hget⟩)
            · exact ⟨key, List.mem_cons_self, ha⟩
            · exact ⟨uid, List.mem_cons_of_mem _ huid, hget⟩
          · rintro ⟨uid, huid, hget⟩
            rcases List.mem_cons.1 huid with rfl | huid
            · rw [ha, Option.some.injEq] at hget
              exact Or.inl hget.symm
            · exact Or.inr ⟨uid, huid, hget⟩
  rw [hlookup hprogs]
  constructor
  · rintro ⟨uid, -, hget⟩
    exact ⟨uid, hget⟩
  · rintro ⟨uid, hget⟩
    exact ⟨uid, (h.mem_iff uid).2 (OrderedDict.mem_of_get? hget), hget⟩

theorem pairwise_names (hids : (progs.map Progression.id).Nodup)
    (hunique : ∀ p ∈ progs, ∀ q ∈ progs, ∀ name, truthy p.name = some name → truthy q.name = some name → p.id = q.id) :
    progs.Pairwise fun p q ↦ ∀ n, truthy p.name = some n → truthy q.name ≠ some n := by
  induction progs with
  | nil => exact List.Pairwise.nil
  | cons prog rest ih =>
    rw [List.map_cons, List.nodup_cons] at hids
    refine List.pairwise_cons.2 ⟨fun q hq n hn hqn ↦ hids.1 ?_, ih hids.2 fun p hp q hq ↦
      hunique p (List.mem_cons_of_mem _ hp) q (List.mem_cons_of_mem _ hq)⟩
    rw [hunique prog List.mem_cons_self q (List.mem_cons_of_mem _ hq) n hn hqn]
    exact List.mem_map_of_mem hq

variable {progressions : Pile U (Progression U) Unit}

/-- A constructed flow starts with references in place and an exact index. -/
theorem grounded_indexed_new (hitems : items.Agrees) (hprogs : progressions.Agrees) (h : new items progressions = .ok f)
    : f.Grounded ∧ f.Indexed := by
  unfold new at h
  split at h
  · cases h
  · next progs hvalues =>
    split at h
    · cases h
    · next hreferences =>
      split at h
      · cases h
      · next names hnames =>
        cases h
        have hmem := mem_values_iff hprogs hvalues
        obtain ⟨-, hentry, hback⟩ := indexProgressionNames_ok hnames
        refine ⟨⟨hitems, hprogs, fun uid prog howned ↦ ?_⟩, ⟨fun name uid hget hne ↦ ?_,
          fun uid prog name howned htruthy ↦ ?_⟩⟩
        · exact references_of_validate.1 hreferences prog ((hmem prog).2 ⟨uid, howned⟩)
        · rcases hback name uid hget with hnone | ⟨prog, hprog, htruthy, rfl⟩
          · simp at hnone
          · obtain ⟨uid, hget⟩ := (hmem prog).1 hprog
            have hid : prog.id = uid := hprogs.own_ids uid prog hget
            exact ⟨prog, hid ▸ hget, (truthy_eq_some_iff.1 htruthy).1⟩
        · have hid : prog.id = uid := hprogs.own_ids uid prog howned
          exact hid ▸ hentry prog ((hmem prog).2 ⟨uid, howned⟩) name htruthy

/-- Construction from sound piles succeeds when references and names are in order. -/
theorem new_ok (items : Pile U α τ) (hprogs : progressions.Agrees)
    (hreferences : ∀ uid prog, progressions.collections.get? uid = some prog → ∀ u ∈ prog.order, u ∈ items.order)
    (hunique : ∀ uid uid' p q name, progressions.collections.get? uid = some p →
      progressions.collections.get? uid' = some q → truthy p.name = some name →
        truthy q.name = some name → uid = uid') : ∃ f, new items progressions = .ok f := by
  obtain ⟨progs, hvalues⟩ := hprogs.values_ok
  have hmem := mem_values_iff hprogs hvalues
  have hids : progs.map Progression.id = progressions.order :=
    Pile.ids_lookupAll hprogs.own_ids hvalues
  have hvalid : validateReferentialIntegrity items progs = .ok () := by
    refine references_of_validate.2 fun prog hprog ↦ ?_
    obtain ⟨uid, hget⟩ := (hmem prog).1 hprog
    exact hreferences uid prog hget
  have hpairwise := pairwise_names (hids ▸ hprogs.nodup) (by
    intro p hp q hq name hpn hqn
    obtain ⟨uid, hget⟩ := (hmem p).1 hp
    obtain ⟨uid', hget'⟩ := (hmem q).1 hq
    have heq := hunique uid uid' p q name hget hget' hpn hqn
    exact (hprogs.own_ids uid p hget).trans (heq.trans (hprogs.own_ids uid' q hget').symm))
  obtain ⟨names, hnames⟩ := indexProgressionNames_total OrderedDict.empty (by simp) hpairwise
  exact ⟨⟨items, progressions, names⟩, by simp only [new, hvalues, hvalid, hnames]⟩

/-- A flow whose names are unique survives serialization. -/
theorem fromDict_toDict_ok (h : f.Grounded)
    (hunique : ∀ uid uid' p q name, f.owned uid = some p → f.owned uid' = some q →
      truthy p.name = some name → truthy q.name = some name → uid = uid') (itemsId progressionsId : U) :
    ∃ g : Flow U α τ, fromDict f.toDict itemsId progressionsId = .ok g := by
  have hprogs : Pile.Agrees { f.progressions with
      itemType := none
      progression := { id := progressionsId, order := f.progressions.order, name := none } } :=
    ⟨h.progressions.nodup, h.progressions.mem_iff, h.progressions.own_ids⟩
  obtain ⟨g, hg⟩ := new_ok { f.items with
      itemType := none
      progression := { id := itemsId, order := f.items.order, name := none } }
    hprogs h.references hunique
  refine ⟨g, ?_⟩
  unfold fromDict toDict
  simp only [Pile.fromDict_toDict h.items, Pile.fromDict_toDict h.progressions]
  exact hg

/-! ## Runs -/

/-- What the users of a flow rely on. -/
structure Consistent (f : Flow U α τ) : Prop where
  references : ∀ uid prog, f.owned uid = some prog → ∀ u ∈ prog.order, u ∈ f.items.order
  unique_names : ∀ uid uid' p q name, f.owned uid = some p → f.owned uid' = some q →
    truthy p.name = some name → truthy q.name = some name → uid = uid'
  rejects_iff : ∀ prog name, truthy prog.name = some name →
    ((f.addProgression prog).2 = .error .itemExistsError ↔
      ∃ uid p, f.owned uid = some p ∧ p.name = some name)
  get_finds : ∀ uid prog name, f.owned uid = some prog → prog.name = some name →
    ∃ uid' found, (f.getProgression (.str name)).2 = .ok found ∧ f.owned uid' = some found ∧
      found.name = some name
  round_trip : ∀ itemsId progressionsId, ∃ g : Flow U α τ,
    fromDict f.toDict itemsId progressionsId = .ok g

theorem consistent_of_indexed (hg : f.Grounded) (h : f.Indexed) :
    f.Consistent where
  references := hg.references
  unique_names := fun _ _ _ _ _ hp hq hpn hqn ↦ h.unique hp hq hpn hqn
  rejects_iff := fun _ _ hname ↦
    (addProgression_exists_iff hname).trans (h.mem_iff (truthy_eq_some_iff.1 hname).2)
  get_finds := fun _ _ _ howned hname ↦ getProgression_finds hg howned hname
  round_trip := fun itemsId progressionsId ↦
    fromDict_toDict_ok hg (fun _ _ _ _ _ hp hq hpn hqn ↦ h.unique hp hq hpn hqn) itemsId
      progressionsId

/-- In a consistent flow the index holds the non-empty names that are borne, and no other. -/
theorem Consistent.mem_iff (h : f.Consistent) (uid : U) (hname : name ≠ "") :
    name ∈ f.progressionNames ↔ ∃ uid prog, f.owned uid = some prog ∧ prog.name = some name := by
  have htruthy : truthy ({ id := uid, order := [], name := some name } : Progression U).name =
      some name :=
    truthy_eq_some_iff.2 ⟨rfl, hname⟩
  exact (addProgression_exists_iff htruthy).symm.trans (h.rejects_iff _ name htruthy)

/-- The call renames nothing behind the index: an assigned name is the one already borne, and a
progression added over an owned one finds that one nameless, unless it is refused. -/
def Tracked (f : Flow U α τ) : FlowCall U α → Prop
  | .setName uid name => ∀ prog, f.owned uid = some prog → truthy prog.name = truthy name
  | .addProgression progression => ∀ old, f.owned progression.id = some old →
      truthy old.name = none ∨
        (∃ name uid prog, truthy progression.name = some name ∧ f.owned uid = some prog ∧
          prog.name = some name) ∨
        missingItems f.items progression.order = true
  | _ => True

theorem indexed_setName (h : f.Indexed) {name : Option String}
    (hc : ∀ prog, f.owned uid = some prog → truthy prog.name = truthy name) :
    (f.modifyProgression uid fun prog ↦ { prog with name }).Indexed := by
  refine ⟨fun n pid hentry hne ↦ ?_, fun pid prog n howned hn ↦ ?_⟩
  · obtain ⟨prog, howned, hprog⟩ := h.hit n pid hentry hne
    rw [owned_modifyProgression, howned]
    split
    · next heq =>
      have hborne : truthy name = some n := by
        rw [← hc prog (heq ▸ howned)]
        exact truthy_eq_some_iff.2 ⟨hprog, hne⟩
      exact ⟨_, rfl, (truthy_eq_some_iff.1 hborne).1⟩
    · exact ⟨prog, rfl, hprog⟩
  · rw [owned_modifyProgression] at howned
    split at howned
    · next heq =>
      obtain ⟨old, hold, rfl⟩ := Option.map_eq_some_iff.1 howned
      exact h.entry pid old n hold ((hc old (heq ▸ hold)).trans hn)
    · exact h.entry pid prog n howned hn

theorem indexed_addProgression (h : f.Indexed) (hc : Tracked f (.addProgression prog)) :
    (f.addProgression prog).1.Indexed := by
  by_cases haccepts : f.Accepts prog
  · have hnameless : ∀ old, f.owned prog.id = some old → truthy old.name = none := by
      intro old hold
      rcases hc old hold with hnone | ⟨name, uid, p, hname, howned, hp⟩ | hmissing
      · exact hnone
      · have hmem := (h.mem_iff (truthy_eq_some_iff.1 hname).2).2 ⟨uid, p, howned, hp⟩
        have hfresh := haccepts.1
        simp only [hname, Option.any_some, decide_eq_false_iff_not] at hfresh
        exact absurd hmem hfresh
      · exact absurd (haccepts.2.symm.trans hmissing) (by simp)
    refine ⟨fun name uid hentry hne ↦ ?_, fun uid p name howned htruthy ↦ ?_⟩
    · rw [names_addProgression haccepts] at hentry
      split at hentry
      · next hname =>
        cases hentry
        exact ⟨prog, by rw [owned_addProgression haccepts, if_pos rfl],
          (truthy_eq_some_iff.1 hname).1⟩
      · obtain ⟨p, howned, hp⟩ := h.hit name uid hentry hne
        have huid : uid ≠ prog.id := by
          rintro rfl
          have hborne : truthy p.name = some name := truthy_eq_some_iff.2 ⟨hp, hne⟩
          rw [hnameless p howned] at hborne
          cases hborne
        exact ⟨p, by rw [owned_addProgression haccepts, if_neg huid]; exact howned, hp⟩
    · rw [owned_addProgression haccepts] at howned
      rw [names_addProgression haccepts]
      split at howned
      · next heq =>
        cases howned
        rw [if_pos htruthy, heq]
      · have hentry := h.entry uid p name howned htruthy
        have hfresh : truthy prog.name ≠ some name := by
          intro hname
          have hfresh := haccepts.1
          simp only [hname, Option.any_some, decide_eq_false_iff_not] at hfresh
          exact hfresh (OrderedDict.mem_of_get? hentry)
        rw [if_neg hfresh]
        exact hentry
  · rw [addProgression_of_not_accepts haccepts]
    exact h

variable {c : FlowCall U α}

theorem indexed_exec (hg : f.Grounded) (h : f.Indexed) (hc : Tracked f c) : (f.exec c).Indexed := by
  cases c with
  | addProgression progression => exact indexed_addProgression h hc
  | removeProgression key => exact indexed_removeProgression hg h key
  | getProgression key => exact indexed_getProgression hg h key
  | addItem item progressions => exact (addItem_spec hg item progressions).2 h
  | removeItem itemId => exact (removeItem_spec hg itemId).2.indexed h
  | clear => exact indexed_clear f
  | setName uid name => exact indexed_setName h hc

/-- An assigned name that the index does not know makes the flow inconsistent. -/
theorem not_consistent_setName (h : f.Indexed) {name : Option String} (howned : f.owned uid = some prog)
    (hname : truthy prog.name ≠ truthy name) :
    ¬ (f.modifyProgression uid fun prog ↦ { prog with name }).Consistent := by
  intro hcons
  have hnew : (f.modifyProgression uid fun prog ↦ { prog with name }).owned uid =
      some { prog with name } := by
    rw [owned_modifyProgression, if_pos rfl, howned]
    rfl
  cases hold : truthy prog.name with
  | some a =>
    -- The old name stays in the index, and nobody else bears it.
    have ha := truthy_eq_some_iff.1 hold
    have hmem : a ∈ f.progressionNames := (h.mem_iff ha.2).2 ⟨uid, prog, howned, ha.1⟩
    obtain ⟨uid', p, hp, hpn⟩ := (hcons.mem_iff uid ha.2).1 hmem
    rw [owned_modifyProgression] at hp
    split at hp
    · rw [Option.map_eq_some_iff] at hp
      obtain ⟨old, -, rfl⟩ := hp
      exact hname (hold.trans (truthy_eq_some_iff.2 ⟨hpn, ha.2⟩).symm)
    · next hne =>
      exact hne (h.unique hp howned (truthy_eq_some_iff.2 ⟨hpn, ha.2⟩) hold)
  | none =>
    cases hassigned : truthy name with
    | none => exact hname (hold.trans hassigned.symm)
    | some b =>
      -- Either another progression bears the new name already, or the index does not know it.
      have hb := truthy_eq_some_iff.1 hassigned
      have hmem : b ∈ f.progressionNames :=
        (hcons.mem_iff uid hb.2).2 ⟨uid, _, hnew, hb.1⟩
      obtain ⟨uid', p, hp, hpn⟩ := (h.mem_iff hb.2).1 hmem
      have hpb : truthy p.name = some b := truthy_eq_some_iff.2 ⟨hpn, hb.2⟩
      have hne : uid' ≠ uid := by
        rintro rfl
        rw [howned, Option.some.injEq] at hp
        rw [hp, hpb] at hold
        cases hold
      have hkept : (f.modifyProgression uid fun prog ↦ { prog with name }).owned uid' = some p := by
        rw [owned_modifyProgression, if_neg hne]
        exact hp
      exact hne (hcons.unique_names uid' uid p _ b hkept hnew hpb hassigned)

/-- A progression that takes the place of a named one leaves the old name in the index. -/
theorem not_consistent_addProgression (h : f.Indexed) (hc : ¬ Tracked f (.addProgression prog)) :
    ¬ (f.addProgression prog).1.Consistent := by
  intro hcons
  simp only [Tracked, not_forall, not_or] at hc
  obtain ⟨old, hold, hnamed, hunborne, hpresent⟩ := hc
  obtain ⟨a, ha⟩ := Option.ne_none_iff_exists'.1 hnamed
  have ha' := truthy_eq_some_iff.1 ha
  have haccepts : f.Accepts prog := by
    refine ⟨?_, by simpa using hpresent⟩
    rw [Option.any_eq_false]
    intro name hname
    rw [decide_eq_false_iff_not, h.mem_iff (truthy_eq_some_iff.1 hname).2]
    rintro ⟨uid, p, howned, hp⟩
    exact hunborne ⟨name, uid, p, hname, howned, hp⟩
  have hrenamed : truthy prog.name ≠ some a := fun heq ↦
    hunborne ⟨a, prog.id, old, heq, hold, ha'.1⟩
  have hmem : a ∈ (f.addProgression prog).1.progressionNames := by
    refine OrderedDict.mem_of_get? (v := prog.id) ?_
    rw [names_addProgression haccepts, if_neg hrenamed]
    exact h.entry prog.id old a hold ha
  obtain ⟨uid, p, hp, hpn⟩ := (hcons.mem_iff prog.id ha'.2).1 hmem
  rw [owned_addProgression haccepts] at hp
  split at hp
  · cases hp
    exact hrenamed (truthy_eq_some_iff.2 ⟨hpn, ha'.2⟩)
  · next hne => exact hne (h.unique hp hold (truthy_eq_some_iff.2 ⟨hpn, ha'.2⟩) ha)

theorem not_consistent_exec (h : f.Indexed) (hc : ¬ Tracked f c) : ¬ (f.exec c).Consistent := by
  cases c with
  | addProgression progression => exact not_consistent_addProgression h hc
  | setName uid name =>
    simp only [Tracked, not_forall] at hc
    obtain ⟨prog, howned, hname⟩ := hc
    exact not_consistent_setName h howned hname
  | removeProgression key => exact absurd trivial hc
  | getProgression key => exact absurd trivial hc
  | addItem item progressions => exact absurd trivial hc
  | removeItem itemId => exact absurd trivial hc
  | clear => exact absurd trivial hc

/-- What does not depend on the index: the piles are sound, references stay within the items, every current name
is found, and only progressions that the flow owns are returned. -/
structure Usable (f : Flow U α τ) : Prop extends f.Grounded where
  finds : ∀ uid prog name, f.owned uid = some prog → prog.name = some name →
    ∃ uid' found, (f.getProgression (.str name)).2 = .ok found ∧ f.owned uid' = some found ∧ found.name = some name
  returned : ∀ key prog, (f.getProgression key).2 = .ok prog → ∃ uid, f.owned uid = some prog

/-- In every run a flow stays usable, however its progressions are renamed behind the index. -/
theorem usable_throughout {items : Pile U α τ} {progressions : Pile U (Progression U) Unit} {f : Flow U α τ}
    (hitems : items.Agrees) (hprogs : progressions.Agrees) (hnew : new items progressions = .ok f)
    (calls : List (FlowCall U α)) : Transition.Throughout exec Usable f calls := by
  have hgrounded : Transition.Throughout exec Grounded f calls :=
    .of_invariant (fun _ c h ↦ grounded_exec h c) (grounded_indexed_new hitems hprogs hnew).1
  refine hgrounded.mono fun g h ↦ ⟨h, fun uid prog name ↦ ?_, fun key prog ↦ ?_⟩
  · exact getProgression_finds h
  · exact owned_getProgression

/-- A flow with two items and one progression, named `draft`. -/
def draftFlow : Flow Nat (Bare Nat) Unit where
  items := Pile.twoItems
  progressions :=
    { collections := .ofList [(5, { id := 5, order := [0], name := some "draft" })]
      itemType := none
      progression := { id := 8, order := [5], name := none }
      strictType := false }
  progressionNames := .ofList [("draft", 5)]

theorem agrees_progressions_draftFlow : draftFlow.progressions.Agrees := by
  refine ⟨by decide, fun u ↦ Iff.rfl, fun u prog hget ↦ ?_⟩
  have hmem := OrderedDict.mem_of_get?_ofList hget
  rw [List.mem_singleton, Prod.mk.injEq] at hmem
  rw [hmem.1, hmem.2]
  rfl

theorem new_draftFlow : new draftFlow.items draftFlow.progressions = .ok draftFlow := rfl

/-- The progression is renamed behind the index and looked up. -/
theorem usable_throughout_renamed : Transition.Throughout exec Usable draftFlow
    [.setName 5 (some "done"), .getProgression (.str "done")] :=
  usable_throughout Pile.agrees_twoItems agrees_progressions_draftFlow new_draftFlow _

end Flow

end Lionagi.Protocols
